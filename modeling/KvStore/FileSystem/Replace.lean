import KvStore.FileSystem.Directory
import Mathlib.Data.List.Induction
import Mathlib.Logic.Relation

/-!
# Replacing a file atomically

A function that replaces a file is a list of system calls, each with what is done when it fails,
and with calls deferred to the return. Any number of owners run such functions on one directory,
their calls in any order, and the power may fail between any two calls.

* `check`: a test of the text of such a function: the temporary file is written, synced and closed
  before the rename, the directory is synced after it, and clean-up does not touch the file.
* `recent`: what can be found, read off the calls and returns: what the last successful call has
  written, or what a later call was to write.
* `replace_atomic`: if the functions of all owners pass `check`, nothing else is found, neither by a
  read nor after any of the power failures.
-/

namespace KvStore.FileSystem

/-! ## Functions -/

/-- A statement: a call, with the calls that are made before its error is returned, or a call that
    is deferred to the return. -/
inductive Stmt where
  | run (c : Call) (onError : List Call)
  | defer (c : Call)
  deriving DecidableEq

/-- A function that is being executed. -/
structure Proc (β : Type) where
  data : β
  todo : List Stmt
  deferred : List Call
  fd : Option ℕ
  /-- once the result is known: the calls that are left, and the result -/
  ending : Option (List Call × Bool)

/-- What can be observed. -/
inductive Event (W β : Type) where
  | save (w : W) (b : β)
  | saved (w : W) (ok : Bool)
  /-- the power fails; what each owner then finds -/
  | crash (found : W → Option (Content β))

structure World (W β : Type) where
  fs : FS W β
  proc : W → Option (Proc β)
  history : List (Event W β)

variable {W β : Type} [DecidableEq W]

def World.init : World W β := { fs := .init, proc := fun _ => none, history := [] }

/-- One step. `accepts` says what an owner writes. -/
inductive Step (program : W → List Stmt) (accepts : W → β → Prop) (x : World W β) :
    World W β → Prop
  | call {w : W} {b : β} (hp : x.proc w = none) (hb : accepts w b) :
      Step program accepts x
        { x with
          proc := Function.update x.proc w
            (some { data := b, todo := program w, deferred := [], fd := none, ending := none })
          history := x.history ++ [.save w b] }
  | ok {w : W} {p : Proc β} {c : Call} {onError : List Call} {rest : List Stmt} {fs : FS W β}
      {fd : Option ℕ} (hp : x.proc w = some p) (he : p.ending = none)
      (ht : p.todo = .run c onError :: rest) (hx : Exec w p.data x.fs p.fd c true fs fd) :
      Step program accepts x
        { x with fs := fs, proc := Function.update x.proc w (some { p with todo := rest, fd := fd }) }
  | err {w : W} {p : Proc β} {c : Call} {onError : List Call} {rest : List Stmt} {fs : FS W β}
      {fd : Option ℕ} (hp : x.proc w = some p) (he : p.ending = none)
      (ht : p.todo = .run c onError :: rest) (hx : Exec w p.data x.fs p.fd c false fs fd) :
      Step program accepts x
        { x with
          fs := fs
          proc := Function.update x.proc w
            (some { p with fd := fd, ending := some (onError ++ p.deferred, false) }) }
  | defer {w : W} {p : Proc β} {c : Call} {rest : List Stmt} (hp : x.proc w = some p)
      (he : p.ending = none) (ht : p.todo = .defer c :: rest) :
      Step program accepts x
        { x with
          proc := Function.update x.proc w
            (some { p with todo := rest, deferred := c :: p.deferred }) }
  | finish {w : W} {p : Proc β} (hp : x.proc w = some p) (he : p.ending = none) (ht : p.todo = []) :
      Step program accepts x
        { x with proc := Function.update x.proc w (some { p with ending := some (p.deferred, true) }) }
  | clean {w : W} {p : Proc β} {c : Call} {rest : List Call} {r ok : Bool} {fs : FS W β}
      {fd : Option ℕ} (hp : x.proc w = some p) (he : p.ending = some (c :: rest, r))
      (hx : Exec w p.data x.fs p.fd c ok fs fd) :
      Step program accepts x
        { x with
          fs := fs
          proc := Function.update x.proc w (some { p with fd := fd, ending := some (rest, r) }) }
  | ret {w : W} {p : Proc β} {r : Bool} (hp : x.proc w = some p) (he : p.ending = some ([], r)) :
      Step program accepts x
        { x with
          proc := Function.update x.proc w none
          history := x.history ++ [.saved w r] }
  | crash {d : Dir W} {c : ℕ → Content β} (hd : d ∈ x.fs.dir.disk)
      (hc : ∀ i, c i ∈ (x.fs.file i).disk) :
      Step program accepts x
        { fs := x.fs.crash d c
          proc := fun _ => none
          history := x.history ++ [.crash (x.fs.crash d c).read] }

/-- The states that can be reached. -/
abbrev Runs (program : W → List Stmt) (accepts : W → β → Prop) : World W β → Prop :=
  Relation.ReflTransGen (Step program accepts) World.init

/-! ## What can be found -/

/-- What can be found after the event, if `l` could be found before. -/
def recentAfter (w : W) (l : List (Option (Content β))) : Event W β → List (Option (Content β))
  | .save w' b => if w' = w then l ++ [some (.whole b)] else l
  | .saved w' ok => if w' = w ∧ ok = true then l.getLast?.toList else l
  | .crash found => [found w]

/-- The contents of the file of `w` that are not outdated, in the order of the calls. -/
def recent (w : W) (h : List (Event W β)) : List (Option (Content β)) := h.foldl (recentAfter w) [none]

/-- After no power failure is anything outdated found, and a call that succeeds is the last one
    that could be found. -/
structure Legal (h : List (Event W β)) : Prop where
  crash : ∀ before found after, h = before ++ .crash found :: after → ∀ w, found w ∈ recent w before
  saved : ∀ before w after, h = before ++ .saved w true :: after →
    ∃ b, (recent w before).getLast? = some (some (.whole b))

theorem recent_concat (w : W) (h : List (Event W β)) (e : Event W β) :
    recent w (h ++ [e]) = recentAfter w (recent w h) e := by
  simp [recent]

omit [DecidableEq W] in
/-- An event of a history that has got one more. -/
theorem event_concat {h before after : List (Event W β)} {e e' : Event W β}
    (heq : h ++ [e] = before ++ e' :: after) :
    before = h ∧ e' = e ∨ ∃ after', h = before ++ e' :: after' := by
  rcases List.eq_nil_or_concat after with rfl | ⟨after, last, rfl⟩
  · obtain ⟨rfl, he⟩ := List.append_inj' heq rfl
    exact .inl ⟨rfl, (List.cons.inj he).1.symm⟩
  · rw [List.concat_eq_append, ← List.cons_append, ← List.append_assoc] at heq
    exact .inr ⟨after, (List.append_inj' heq rfl).1⟩

theorem Legal.concat {h : List (Event W β)} (hl : Legal h) {e : Event W β}
    (hcrash : ∀ found, e = .crash found → ∀ w, found w ∈ recent w h)
    (hsaved : ∀ w, e = .saved w true → ∃ b, (recent w h).getLast? = some (some (.whole b))) :
    Legal (h ++ [e]) := by
  refine ⟨fun before found after heq => ?_, fun before w after heq => ?_⟩
  · rcases event_concat heq with ⟨rfl, he⟩ | ⟨after', heq'⟩
    · exact hcrash found he.symm
    · exact hl.crash before found after' heq'
  · rcases event_concat heq with ⟨rfl, he⟩ | ⟨after', heq'⟩
    · exact hsaved w he.symm
    · exact hl.saved before w after' heq'

theorem Legal.of_append {h t : List (Event W β)} (hl : Legal (h ++ t)) : Legal h :=
  ⟨fun before found after heq => hl.crash before found (after ++ t) (by rw [heq]; simp),
    fun before w after heq => hl.saved before w (after ++ t) (by rw [heq]; simp)⟩

/-- As long as there is no new call, the one thing that can be found stays. -/
theorem Legal.recent_stays {h t : List (Event W β)} {w : W} {o : Option (Content β)}
    (hl : Legal (h ++ t)) (ho : recent w h = [o]) (ht : ∀ b, .save w b ∉ t) :
    recent w (h ++ t) = [o] := by
  induction t using List.reverseRecOn with
  | nil => simpa using ho
  | append_singleton t e ih =>
    rw [← List.append_assoc] at hl ⊢
    have hrec := ih hl.of_append fun b hb => ht b (List.mem_append_left _ hb)
    rw [recent_concat, hrec]
    cases e with
    | save w' b =>
      have hne : w' ≠ w := fun hw => ht b (by simp [hw])
      simp [recentAfter, hne]
    | saved w' ok => simp [recentAfter]
    | crash found =>
      have hfound := hl.crash (h ++ t) found [] rfl w
      rw [hrec, List.mem_singleton] at hfound
      simp [recentAfter, hfound]

/-- What can be found was to be written by a call, or the file does not exist yet. -/
theorem Legal.recent_whole {h : List (Event W β)} (hl : Legal h) {w : W}
    {r : Option (Content β)} (hr : r ∈ recent w h) :
    r = none ∨ ∃ b, .save w b ∈ h ∧ r = some (.whole b) := by
  induction h using List.reverseRecOn generalizing r with
  | nil => exact .inl (by simpa [recent] using hr)
  | append_singleton h e ih =>
    have hl' := hl.of_append
    have hold : ∀ {r}, r ∈ recent w h → r = none ∨ ∃ b, .save w b ∈ h ++ [e] ∧ r = some (.whole b) := by
      intro r hr
      rcases ih hl' hr with rfl | ⟨b, hb, rfl⟩
      · exact .inl rfl
      · exact .inr ⟨b, List.mem_append_left _ hb, rfl⟩
    rw [recent_concat] at hr
    cases e with
    | save w' b =>
      simp only [recentAfter] at hr
      split_ifs at hr with hw
      · rcases List.mem_append.mp hr with hr | hr
        · exact hold hr
        · exact .inr ⟨b, by simp [hw], List.mem_singleton.mp hr⟩
      · exact hold hr
    | saved w' ok =>
      simp only [recentAfter] at hr
      split_ifs at hr with hw
      · exact hold (List.mem_of_getLast? (by simpa using hr))
      · exact hold hr
    | crash found =>
      rw [List.mem_singleton.mp hr]
      exact hold (hl.crash h found [] rfl w)

/-- Once a call has succeeded the file exists. -/
theorem Legal.recent_present {h : List (Event W β)} (hl : Legal h) {w : W}
    (hsaved : .saved w true ∈ h) : none ∉ recent w h := by
  induction h using List.reverseRecOn with
  | nil => cases hsaved
  | append_singleton h e ih =>
    have hold : .saved w true ∈ h → none ∉ recent w h := ih hl.of_append
    rw [recent_concat]
    cases e with
    | save w' b =>
      have hpresent := hold (by simpa using hsaved)
      simp only [recentAfter]
      split_ifs <;> simp [hpresent]
    | saved w' ok =>
      by_cases hthis : w' = w ∧ ok = true
      · obtain ⟨rfl, rfl⟩ := hthis
        obtain ⟨b, hb⟩ := hl.saved h w' [] rfl
        simp [recentAfter, hb]
      · have hpresent : none ∉ recent w h := by
          refine hold ?_
          rcases List.mem_append.mp hsaved with hin | hin
          · exact hin
          · cases List.mem_singleton.mp hin
            exact absurd ⟨rfl, rfl⟩ hthis
        simpa [recentAfter, hthis] using hpresent
    | crash found =>
      have hpresent := hold (by simpa using hsaved)
      have hfound := hl.crash h found [] rfl w
      simp only [recentAfter, List.mem_singleton]
      exact fun hnone => hpresent (hnone ▸ hfound)

/-! ## The test of a function -/

/-- How far the replacement has got. -/
inductive Stage where
  | start
  | opened
  | written
  | synced
  | closed
  | renamed
  | durable
  deriving DecidableEq

/-- The stage after a call that succeeds, if the call is in place. -/
def Stage.after : Stage → Call → Option Stage
  | .start, .prepare => some .start
  | .start, .create .tmp => some .opened
  | .opened, .write => some .written
  | .written, .sync => some .synced
  | .synced, .close => some .closed
  | .closed, .rename .tmp .path => some .renamed
  | .renamed, .openDir => some .renamed
  | .renamed, .syncDir => some .durable
  | _, _ => none

/-- A call that leaves the file alone. -/
def Call.harmless : Call → Bool
  | .close | .remove .tmp | .closeDir => true
  | _ => false

/-- Every call is in place, and clean-up leaves the file alone. -/
def check (s : Stage) : List Stmt → Bool
  | [] => s == .durable
  | .defer c :: rest => c.harmless && check s rest
  | .run c onError :: rest =>
    onError.all Call.harmless &&
      match s.after c with
      | some s' => check s' rest
      | none => false

/-! ## Names and files -/

/-- The names are used as the functions use them: no file has two names in any directory that may
    be on the disk, and what has been a file there is nobody's temporary file. -/
structure Tidy (fs : FS W β) : Prop where
  inj : ∀ d ∈ fs.dir.disk, ∀ a a' i, d a = some i → d a' = some i → a = a'
  old : ∀ d ∈ fs.dir.disk, ∀ a i, d a = some i → i < fs.fresh
  apart : ∀ d ∈ fs.dir.disk, ∀ w w' i, d (w, .path) = some i → fs.dir.now (w', .tmp) ≠ some i

/-- A call that creates and removes temporary files only, and renames them only to their file. -/
def Call.allowed : Call → Bool
  | .create n | .remove n => n == .tmp
  | .rename src dst => src == .tmp && dst == .path
  | _ => true

theorem Stage.after_allowed {s s' : Stage} {c : Call} (h : s.after c = some s') :
    c.allowed = true := by
  unfold Stage.after at h
  split at h <;> first | rfl | cases h

theorem Call.harmless_allowed {c : Call} (h : c.harmless = true) : c.allowed = true := by
  unfold Call.harmless at h
  split at h <;> first | rfl | cases h

omit [DecidableEq W] in
theorem Tidy.dir_eq {fs fs' : FS W β} (h : Tidy fs) (hdir : fs'.dir = fs.dir)
    (hfresh : fs'.fresh = fs.fresh) : Tidy fs' := by
  refine ⟨?_, ?_, ?_⟩
  · rw [hdir]
    exact h.inj
  · rw [hdir, hfresh]
    exact h.old
  · rw [hdir]
    exact h.apart

omit [DecidableEq W] in
/-- A change of the directory. -/
theorem Tidy.update {fs fs' : FS W β} (h : Tidy fs) {d' : Dir W}
    (hdir : fs'.dir = fs.dir.update d') (hfresh : fs.fresh ≤ fs'.fresh)
    (hinj : ∀ a a' i, d' a = some i → d' a' = some i → a = a')
    (hold : ∀ a i, d' a = some i → i < fs'.fresh)
    (htmp : ∀ d ∈ fs.dir.disk, ∀ w w' i, d (w, .path) = some i → d' (w', .tmp) ≠ some i) :
    Tidy fs' := by
  refine ⟨fun d hd => ?_, fun d hd a i hi => ?_, fun d hd w w' i hi => ?_⟩ <;>
    rw [hdir] at hd <;> rcases Cached.mem_update.mp hd with rfl | hd
  · exact hinj
  · exact h.inj d hd
  · exact hold a i hi
  · exact (h.old d hd a i hi).trans_le hfresh
  · rw [hdir, Cached.update_now]
    intro hi'
    cases hinj _ _ i hi hi'
  · rw [hdir, Cached.update_now]
    exact htmp d hd w w' i hi

/-- An entry of a directory after one has been changed. -/
theorem update_eq_some {d : Dir W} {a a' : W × Slot} {o : Option ℕ} {i : ℕ}
    (h : Function.update d a o a' = some i) : a' = a ∧ o = some i ∨ a' ≠ a ∧ d a' = some i := by
  by_cases ha : a' = a
  · subst ha
    rw [Function.update_self] at h
    exact .inl ⟨rfl, h⟩
  · rw [Function.update_of_ne ha] at h
    exact .inr ⟨ha, h⟩

theorem Tidy.exec {w : W} {b : β} {fs fs' : FS W β} {fd fd' : Option ℕ} {c : Call} {ok : Bool}
    (h : Tidy fs) (hc : c.allowed = true) (hx : Exec w b fs fd c ok fs' fd') : Tidy fs' := by
  have hnow := h.inj _ fs.dir.now_mem
  have hlt := h.old _ fs.dir.now_mem
  cases hx with
  | createNew hn =>
    refine h.update rfl (Nat.le_succ _) (fun a a' i hi hi' => ?_) (fun a i hi => ?_)
      fun d hd v v' i hi hi' => ?_
    · rcases update_eq_some hi with ⟨ha, hi⟩ | ⟨-, hi⟩ <;>
        rcases update_eq_some hi' with ⟨ha', hi'⟩ | ⟨-, hi'⟩
      · rw [ha, ha']
      · exact absurd (hlt _ i hi') (by cases hi; exact lt_irrefl _)
      · exact absurd (hlt _ i hi) (by cases hi'; exact lt_irrefl _)
      · exact hnow a a' i hi hi'
    · rcases update_eq_some hi with ⟨-, hi⟩ | ⟨-, hi⟩
      · cases hi
        exact Nat.lt_succ_self _
      · exact (hlt a i hi).trans (Nat.lt_succ_self _)
    · rcases update_eq_some hi' with ⟨-, hi'⟩ | ⟨-, hi'⟩
      · cases hi'
        exact lt_irrefl _ (h.old d hd _ _ hi)
      · exact h.apart d hd v v' i hi hi'
  | @rename src dst j hj =>
    obtain ⟨rfl, rfl⟩ : src = .tmp ∧ dst = .path := by simpa [Call.allowed] using hc
    -- an entry afterwards is the renamed one, or an old one of another file
    have hentry : ∀ a i, Function.update (Function.update fs.dir.now (w, .tmp) none) (w, .path)
        (some j) a = some i → a = (w, .path) ∧ i = j ∨ a ≠ (w, .tmp) ∧ fs.dir.now a = some i := by
      intro a i hi
      rcases update_eq_some hi with ⟨ha, hi⟩ | ⟨-, hi⟩
      · exact .inl ⟨ha, (Option.some.inj hi).symm⟩
      · rcases update_eq_some hi with ⟨-, hi⟩ | ⟨ha, hi⟩
        · cases hi
        · exact .inr ⟨ha, hi⟩
    refine h.update rfl le_rfl (fun a a' i hi hi' => ?_) (fun a i hi => ?_)
      fun d hd v v' i hi hi' => ?_
    · rcases hentry a i hi with ⟨ha, hij⟩ | ⟨hne, hold⟩ <;>
        rcases hentry a' i hi' with ⟨ha', hij'⟩ | ⟨hne', hold'⟩
      · rw [ha, ha']
      · exact absurd (hnow _ _ _ (hij ▸ hold') hj) hne'
      · exact absurd (hnow _ _ _ (hij' ▸ hold) hj) hne
      · exact hnow a a' i hold hold'
    · rcases hentry a i hi with ⟨-, rfl⟩ | ⟨-, hi⟩
      · exact hlt _ _ hj
      · exact hlt a i hi
    · rcases hentry _ i hi' with ⟨ha, -⟩ | ⟨-, hi'⟩
      · cases ha
      · exact h.apart d hd v v' i hi hi'
  | remove n =>
    have hentry : ∀ a i, Function.update fs.dir.now (w, n) none a = some i →
        fs.dir.now a = some i := by
      intro a i hi
      rcases update_eq_some hi with ⟨-, hi⟩ | ⟨-, hi⟩
      · cases hi
      · exact hi
    exact h.update rfl le_rfl (fun a a' i hi hi' => hnow a a' i (hentry a i hi) (hentry a' i hi'))
      (fun a i hi => hlt a i (hentry a i hi))
      fun d hd v v' i hi hi' => h.apart d hd v v' i hi (hentry _ i hi')
  | syncDir =>
    refine ⟨fun d hd => ?_, fun d hd => ?_, fun d hd => ?_⟩ <;> obtain rfl := Cached.mem_clean.mp hd
    · exact hnow
    · exact hlt
    · exact h.apart _ fs.dir.now_mem
  | _ => exact h.dir_eq rfl rfl

/-! ## What the owners know -/

namespace FS

/-- The file of a name. -/
def look (fs : FS W β) (a : W × Slot) : Option (Cached (Content β)) := (fs.dir.now a).map fs.file

/-- What an owner knows at a stage. -/
def Holds (fs : FS W β) (w : W) (b : β) (fd : Option ℕ) : Stage → Prop
  | .start => True
  | .opened => fd = fs.dir.now (w, .tmp) ∧ ∃ c, fs.look (w, .tmp) = some c ∧ c.now = .blank
  | .written => fd = fs.dir.now (w, .tmp) ∧ ∃ c, fs.look (w, .tmp) = some c ∧ c.now = .whole b
  | .synced => fd = fs.dir.now (w, .tmp) ∧ fs.look (w, .tmp) = some (.clean (.whole b))
  | .closed => fs.look (w, .tmp) = some (.clean (.whole b))
  | .renamed => fs.look (w, .path) = some (.clean (.whole b))
  | .durable => ∀ d ∈ fs.dir.disk, (d (w, .path)).map fs.file = some (.clean (.whole b))

end FS

/-- What a step of the owner `w` can do to the others: its names and its temporary file are its
    own. -/
structure Local (w : W) (fs fs' : FS W β) : Prop where
  others : ∀ w' n, w' ≠ w → fs'.dir.now (w', n) = fs.dir.now (w', n)
  file : ∀ i, fs'.file i = fs.file i ∨ fs'.dir.now (w, .tmp) = some i
  disk : ∀ d ∈ fs'.dir.disk, d ∈ fs.dir.disk ∨ d = fs'.dir.now

section Local

variable {w w' : W} {b : β} {fs fs' : FS W β} {fd fd' : Option ℕ} {c : Call} {ok : Bool}

omit [DecidableEq W] in
theorem Local.refl (w : W) (fs : FS W β) : Local w fs fs :=
  ⟨fun _ _ _ => rfl, fun _ => .inl rfl, fun _ => .inl⟩

omit [DecidableEq W] in
/-- A file that may be found keeps its content. -/
theorem Local.path (h : Local w fs fs') (ht : Tidy fs') {d : Dir W} (hd : d ∈ fs'.dir.disk) (w' : W) :
    (d (w', .path)).map fs'.file = (d (w', .path)).map fs.file := by
  cases hi : d (w', .path) with
  | none => rfl
  | some i =>
    rcases h.file i with hf | hf
    · simp [hf]
    · exact absurd hf (ht.apart d hd w' w i hi)

omit [DecidableEq W] in
/-- The names of another owner and their files stay. -/
theorem Local.look (h : Local w fs fs') (ht : Tidy fs') (hne : w' ≠ w) (n : Slot) :
    fs'.look (w', n) = fs.look (w', n) := by
  unfold FS.look
  rw [← h.others w' n hne]
  cases hi : fs'.dir.now (w', n) with
  | none => rfl
  | some i =>
    rcases h.file i with hf | hf
    · simp [hf]
    · have hsame := ht.inj _ fs'.dir.now_mem _ _ i hi hf
      exact absurd (Prod.mk.inj hsame).1 hne

omit [DecidableEq W] in
/-- What another owner knows still holds. -/
theorem Local.holds (h : Local w fs fs') (ht : Tidy fs') (hne : w' ≠ w) {s : Stage}
    (hs : fs.Holds w' b fd s) : fs'.Holds w' b fd s := by
  cases s with
  | start => trivial
  | opened | written | synced =>
    simp only [FS.Holds] at hs ⊢
    rw [h.others w' _ hne, h.look ht hne]
    exact hs
  | closed | renamed =>
    simp only [FS.Holds] at hs ⊢
    rw [h.look ht hne]
    exact hs
  | durable =>
    intro d hd
    rw [h.path ht hd]
    rcases h.disk d hd with hd | rfl
    · exact hs d hd
    · rw [h.others w' _ hne]
      exact hs _ fs.dir.now_mem

omit [DecidableEq W] in
/-- The own file stays unless it is renamed. -/
theorem Local.look_path (h : Local w fs fs') (ht : Tidy fs')
    (hnow : fs'.dir.now (w, .path) = fs.dir.now (w, .path)) :
    fs'.look (w, .path) = fs.look (w, .path) := by
  have hpath := h.path ht fs'.dir.now_mem w
  rw [hnow] at hpath
  rw [FS.look, hnow]
  exact hpath

/-! ## The calls in place -/

omit [DecidableEq W] in
theorem Local.setFile {c : Cached (Content β)} {i : ℕ} (hi : fs.dir.now (w, .tmp) = some i) :
    Local w fs (fs.setFile i c) := by
  refine ⟨fun _ _ _ => rfl, fun j => ?_, fun _ => .inl⟩
  by_cases hj : j = i
  · subst hj
    exact .inr hi
  · exact .inl (Function.update_of_ne hj _ _)

omit [DecidableEq W] in
theorem look_setFile {a : W × Slot} {i : ℕ} {c : Cached (Content β)} (hi : fs.dir.now a = some i) :
    (fs.setFile i c).look a = some c := by
  simp [FS.look, FS.setFile, hi]

omit [DecidableEq W] in
theorem look_eq_some {a : W × Slot} {i : ℕ} {c : Cached (Content β)} (hi : fs.dir.now a = some i)
    (h : fs.look a = some c) : fs.file i = c := by
  rw [FS.look, hi] at h
  exact Option.some.inj h

/-- A change of the own names. -/
theorem Local.update {n : Slot} {o : Option ℕ} (d : Dir W)
    (hd : ∀ w' n, w' ≠ w → d (w', n) = fs.dir.now (w', n)) :
    Local w fs { fs with dir := fs.dir.update (Function.update d (w, n) o) } := by
  refine ⟨fun w' n' hne => ?_, fun _ => .inl rfl, fun d hd => ?_⟩
  · rw [Cached.update_now, Function.update_of_ne (by simp [hne])]
    exact hd w' n' hne
  · rcases Cached.mem_update.mp hd with rfl | hd
    · exact .inr rfl
    · exact .inl hd

/-- A call in place that succeeds. -/
theorem exec_ok {s s' : Stage} (ht : Tidy fs) (hs : s.after c = some s') (h : fs.Holds w b fd s)
    (hx : Exec w b fs fd c true fs' fd') :
    Local w fs fs' ∧ fs'.Holds w b fd' s' ∧
      (fs'.look (w, .path) = fs.look (w, .path) ∨ fs'.look (w, .path) = some (.clean (.whole b))) := by
  have ht' := ht.exec (Stage.after_allowed hs) hx
  unfold Stage.after at hs
  split at hs <;> cases hs
  · cases hx
    exact ⟨.refl w fs, trivial, .inl rfl⟩
  · cases hx with
    | createNew hn =>
      have hloc : Local w fs
          { dir := fs.dir.update (Function.update fs.dir.now (w, .tmp) (some fs.fresh))
            file := Function.update fs.file fs.fresh (.scramble .blank)
            fresh := fs.fresh + 1 } := by
        refine ⟨fun w' n hne => ?_, fun i => ?_, fun d hd => ?_⟩
        · simp [hne]
        · by_cases hi : i = fs.fresh
          · subst hi
            exact .inr (by simp)
          · exact .inl (by simp [hi])
        · rcases Cached.mem_update.mp hd with rfl | hd
          · exact .inr rfl
          · exact .inl hd
      refine ⟨hloc, ⟨?_, .scramble .blank, ?_, rfl⟩, .inl (hloc.look_path ht' ?_)⟩
      · simp
      · simp [FS.look]
      · simp
    | createOld hi =>
      exact ⟨.setFile hi, ⟨hi.symm, _, look_setFile hi, rfl⟩,
        .inl ((Local.setFile hi).look_path ht' rfl)⟩
  · obtain ⟨hfd, f, hlook, hblank⟩ := h
    cases hx with
    | write hi hcontent =>
      have hi' := hfd.symm.trans hi
      exact ⟨.setFile hi', ⟨hfd, _, look_setFile hi', rfl⟩,
        .inl ((Local.setFile hi').look_path ht' rfl)⟩
    | writeBehind hi hcontent =>
      rw [look_eq_some (hfd.symm.trans hi) hlook] at hcontent
      exact absurd hblank hcontent
  · obtain ⟨hfd, f, hlook, hwhole⟩ := h
    cases hx with
    | sync hi =>
      have hi' := hfd.symm.trans hi
      refine ⟨.setFile hi', ⟨hfd, ?_⟩, .inl ((Local.setFile hi').look_path ht' rfl)⟩
      rw [look_setFile hi', Cached.sync, look_eq_some hi' hlook, hwhole]
  · cases hx
    exact ⟨.refl w fs, h.2, .inl rfl⟩
  · cases hx with
    | @rename _ _ i hi =>
      have hlook : ({ fs with
          dir := fs.dir.update (Function.update (Function.update fs.dir.now (w, .tmp) none)
            (w, .path) (some i)) } : FS W β).look (w, .path) = some (.clean (.whole b)) := by
        simp [FS.look, look_eq_some hi h]
      exact ⟨.update _ fun w' n hne => Function.update_of_ne (by simp [hne]) _ _, hlook, .inr hlook⟩
  · cases hx
    exact ⟨.refl w fs, h, .inl rfl⟩
  · cases hx
    refine ⟨⟨fun _ _ _ => rfl, fun _ => .inl rfl, fun d hd => .inr hd⟩, fun d hd => ?_, .inl rfl⟩
    obtain rfl := Cached.mem_clean.mp hd
    exact h

/-- A call in place that fails. -/
theorem exec_err {s s' : Stage} (hs : s.after c = some s') (h : fs.Holds w b fd s)
    (hx : Exec w b fs fd c false fs' fd') :
    Local w fs fs' ∧ fs'.dir.now (w, .path) = fs.dir.now (w, .path) := by
  cases hx with
  | failed => exact ⟨.refl w fs, rfl⟩
  | close => exact ⟨.refl w fs, rfl⟩
  | writePart hi =>
    have hfd : fd = fs.dir.now (w, .tmp) := by
      cases s <;> simp [Stage.after] at hs
      exact h.1
    exact ⟨.setFile (hfd.symm.trans hi), rfl⟩

/-- A call that leaves the file alone. -/
theorem exec_harmless (hc : c.harmless = true) (hx : Exec w b fs fd c ok fs' fd') :
    Local w fs fs' ∧ fs'.dir.now (w, .path) = fs.dir.now (w, .path) := by
  cases hx with
  | failed | close | closeDir => exact ⟨.refl w fs, rfl⟩
  | remove n =>
    cases n with
    | path => simp [Call.harmless] at hc
    | tmp => exact ⟨.update _ fun _ _ _ => rfl, Function.update_of_ne (by simp) _ _⟩
  | _ => simp [Call.harmless] at hc

end Local

/-! ## Whole runs -/

/-- What is known of a function that is being executed. -/
structure Proc.Fine (p : Proc β) (w : W) (fs : FS W β) (h : List (Event W β)) : Prop where
  last : (recent w h).getLast? = some (some (.whole p.data))
  deferred : p.deferred.all Call.harmless = true
  running : p.ending = none → ∃ s, check s p.todo = true ∧ fs.Holds w p.data p.fd s
  ending : ∀ cs r, p.ending = some (cs, r) → cs.all Call.harmless = true ∧
    (r = true → fs.Holds w p.data p.fd .durable)

/-- The invariant. -/
structure World.Fine (x : World W β) : Prop where
  tidy : Tidy x.fs
  /-- whatever the disk holds, a file is whole and not outdated -/
  found : ∀ d ∈ x.fs.dir.disk, ∀ w, ∃ r ∈ recent w x.history,
    (d (w, .path)).map x.fs.file = r.map .clean
  procs : ∀ w p, x.proc w = some p → p.Fine w x.fs x.history
  legal : Legal x.history

theorem World.fine_init : (World.init : World W β).Fine := by
  refine ⟨⟨?_, ?_, ?_⟩, fun d hd w => ⟨none, by simp [World.init, recent], ?_⟩, ?_, ⟨?_, ?_⟩⟩
  · rintro d rfl a a' i hi
    cases hi
  · rintro d rfl a i hi
    cases hi
  · rintro d rfl w w' i hi
    cases hi
  · obtain rfl := Cached.mem_clean.mp hd
    rfl
  · intro w p hp
    cases hp
  · intro before found after h
    simp [World.init] at h
  · intro before w after h
    simp [World.init] at h

section Runs

variable {program : W → List Stmt} {accepts : W → β → Prop} {x y : World W β} {w : W} {p p' : Proc β}
  {fs : FS W β} {b : β} {fd fd' : Option ℕ} {c : Call} {ok : Bool}

/-- A move of the owner `w` that is no call and no return. -/
theorem World.Fine.moved (h : x.Fine) (hloc : Local w x.fs fs) (ht : Tidy fs)
    (hpath : ∃ r ∈ recent w x.history, fs.look (w, .path) = r.map .clean)
    (hp : p'.Fine w fs x.history) :
    World.Fine { x with fs := fs, proc := Function.update x.proc w (some p') } := by
  refine ⟨ht, fun d hd w' => ?_, fun w' q hq => ?_, h.legal⟩
  · rw [hloc.path ht hd]
    rcases hloc.disk d hd with hd' | rfl
    · exact h.found d hd' w'
    · by_cases hw : w' = w
      · subst hw
        obtain ⟨r, hr, hlook⟩ := hpath
        refine ⟨r, hr, ?_⟩
        rw [← hloc.path ht hd]
        exact hlook
      · rw [hloc.others w' _ hw]
        exact h.found _ x.fs.dir.now_mem w'
  · by_cases hw : w' = w
    · subst hw
      obtain rfl : p' = q := by simpa using hq
      exact hp
    · have hq' : x.proc w' = some q := by simpa [hw] using hq
      obtain ⟨hlast, hdef, hrun, hend⟩ := h.procs w' q hq'
      refine ⟨hlast, hdef, fun he => ?_, fun cs r he => ?_⟩
      · obtain ⟨s, hs, hholds⟩ := hrun he
        exact ⟨s, hs, hloc.holds ht hw hholds⟩
      · exact ⟨(hend cs r he).1, fun hr => hloc.holds ht hw ((hend cs r he).2 hr)⟩

/-- The file that is there now is not outdated. -/
theorem World.Fine.now (h : x.Fine) (w : W) :
    ∃ r ∈ recent w x.history, x.fs.look (w, .path) = r.map .clean :=
  h.found _ x.fs.dir.now_mem w

/-- A power failure. -/
theorem World.Fine.crash (h : x.Fine) {d : Dir W} {c : ℕ → Content β} (hd : d ∈ x.fs.dir.disk)
    (hc : ∀ i, c i ∈ (x.fs.file i).disk) :
    World.Fine
      { fs := x.fs.crash d c
        proc := fun _ => none
        history := x.history ++ [.crash (x.fs.crash d c).read] } := by
  refine ⟨⟨?_, ?_, ?_⟩, fun d' hd' w => ?_, ?_,
    h.legal.concat (fun found hf w => ?_) (by simp)⟩
  · rintro d' rfl
    exact h.tidy.inj d' hd
  · rintro d' rfl
    exact h.tidy.old d' hd
  · rintro d' rfl w w' i hi hi'
    cases h.tidy.inj d' hd _ _ i hi hi'
  · obtain rfl := Cached.mem_clean.mp hd'
    refine ⟨(x.fs.crash d' c).read w, by simp [recent_concat, recentAfter], ?_⟩
    simp only [FS.read, FS.crash, Option.map_map]
    rfl
  · intro w p hp
    cases hp
  · cases hf
    obtain ⟨r, hr, hfile⟩ := h.found d hd w
    have hread : (x.fs.crash d c).read w = r := by
      show (d (w, .path)).map c = r
      cases hi : d (w, .path) with
      | none =>
        rw [hi] at hfile
        exact (Option.map_eq_none_iff.mp hfile.symm).symm
      | some i =>
        rw [hi] at hfile
        obtain ⟨r', rfl, hclean⟩ := Option.map_eq_some_iff.mp hfile.symm
        have hci := hc i
        rw [← hclean] at hci
        exact congrArg some (Cached.mem_clean.mp hci)
    rw [hread]
    exact hr

/-- A function is called. -/
theorem World.Fine.call (h : x.Fine) (hw : x.proc w = none) (hprog : check .start (program w) = true) :
    World.Fine { x with
      proc := Function.update x.proc w
        (some { data := b, todo := program w, deferred := [], fd := none, ending := none })
      history := x.history ++ [.save w b] } := by
  refine ⟨h.tidy, fun d hd w' => ?_, fun w' q hq => ?_, h.legal.concat (by simp) (by simp)⟩
  · obtain ⟨r, hr, hfile⟩ := h.found d hd w'
    refine ⟨r, ?_, hfile⟩
    rw [recent_concat]
    simp only [recentAfter]
    split_ifs
    · exact List.mem_append_left _ hr
    · exact hr
  · by_cases hw' : w' = w
    · subst hw'
      obtain rfl : _ = q := by simpa using hq
      exact ⟨by simp [recent_concat, recentAfter], rfl, fun _ => ⟨.start, hprog, trivial⟩,
        fun cs r he => by cases he⟩
    · have hq' : x.proc w' = some q := by simpa [hw'] using hq
      obtain ⟨hlast, hdef, hrun, hend⟩ := h.procs w' q hq'
      refine ⟨?_, hdef, hrun, hend⟩
      rw [recent_concat]
      simpa [recentAfter, Ne.symm hw'] using hlast

/-- A function returns. -/
theorem World.Fine.ret (h : x.Fine) (hw : x.proc w = some p) {r : Bool}
    (he : p.ending = some ([], r)) :
    World.Fine { x with
      proc := Function.update x.proc w none, history := x.history ++ [.saved w r] } := by
  have hp := h.procs w p hw
  refine ⟨h.tidy, fun d hd w' => ?_, fun w' q hq => ?_,
    h.legal.concat (by simp) fun v hv => ?_⟩
  · by_cases hdone : w = w' ∧ r = true
    · -- only what it has written can be found
      obtain ⟨rfl, rfl⟩ := hdone
      refine ⟨some (.whole p.data), ?_, (hp.ending [] true he).2 rfl d hd⟩
      simp [recent_concat, recentAfter, hp.last]
    · obtain ⟨o, ho, hfile⟩ := h.found d hd w'
      refine ⟨o, ?_, hfile⟩
      rw [recent_concat]
      simpa only [recentAfter, if_neg hdone] using ho
  · by_cases hw' : w' = w
    · subst hw'
      simp at hq
    · have hq' : x.proc w' = some q := by simpa [hw'] using hq
      obtain ⟨hlast, hdef, hrun, hend⟩ := h.procs w' q hq'
      refine ⟨?_, hdef, hrun, hend⟩
      rw [recent_concat]
      simpa [recentAfter, Ne.symm hw'] using hlast
  · obtain ⟨rfl, rfl⟩ : w = v ∧ r = true := by simpa using hv
    exact ⟨p.data, hp.last⟩

/-- The rest of a function that has passed the test. -/
theorem check_run {s : Stage} {onError : List Call} {rest : List Stmt}
    (h : check s (.run c onError :: rest) = true) :
    onError.all Call.harmless = true ∧ ∃ s', s.after c = some s' ∧ check s' rest = true := by
  rw [check, Bool.and_eq_true] at h
  refine ⟨h.1, ?_⟩
  cases hs : s.after c with
  | none => simp [hs] at h
  | some s' => exact ⟨s', rfl, by simpa [hs] using h.2⟩

theorem World.Fine.step (hprog : ∀ w, check .start (program w) = true) (h : x.Fine)
    (hstep : Step program accepts x y) : y.Fine := by
  cases hstep with
  | call hp hb => exact h.call hp (hprog _)
  | ret hp he => exact h.ret hp he
  | crash hd hc => exact h.crash hd hc
  | @ok w p c onError rest fs fd hp he ht hx =>
    have hfine := h.procs w p hp
    obtain ⟨s, hs, hholds⟩ := hfine.running he
    rw [ht] at hs
    obtain ⟨-, s', hafter, hrest⟩ := check_run hs
    obtain ⟨hloc, hholds', hpath⟩ := exec_ok h.tidy hafter hholds hx
    refine h.moved hloc (h.tidy.exec (Stage.after_allowed hafter) hx) ?_
      ⟨hfine.last, hfine.deferred, fun _ => ⟨s', hrest, hholds'⟩,
        fun cs r he' => absurd (he.symm.trans he') (by simp)⟩
    rcases hpath with hpath | hpath
    · rw [hpath]
      exact h.now w
    · exact ⟨_, List.mem_of_getLast? hfine.last, hpath⟩
  | @err w p c onError rest fs fd hp he ht hx =>
    have hfine := h.procs w p hp
    obtain ⟨s, hs, hholds⟩ := hfine.running he
    rw [ht] at hs
    obtain ⟨herr, s', hafter, -⟩ := check_run hs
    obtain ⟨hloc, hnow⟩ := exec_err hafter hholds hx
    have htidy := h.tidy.exec (Stage.after_allowed hafter) hx
    refine h.moved hloc htidy ?_ ⟨hfine.last, hfine.deferred, fun he' => (by cases he'), ?_⟩
    · rw [hloc.look_path htidy hnow]
      exact h.now w
    · intro cs r he'
      obtain ⟨rfl, rfl⟩ : onError ++ p.deferred = cs ∧ false = r := by simpa using he'
      exact ⟨by rw [List.all_append, herr, hfine.deferred]; rfl, fun hr => by cases hr⟩
  | @defer w p c rest hp he ht =>
    have hfine := h.procs w p hp
    obtain ⟨s, hs, hholds⟩ := hfine.running he
    rw [ht, check, Bool.and_eq_true] at hs
    exact h.moved (.refl w x.fs) h.tidy (h.now w)
      ⟨hfine.last, by rw [List.all_cons, hs.1, hfine.deferred]; rfl, fun _ => ⟨s, hs.2, hholds⟩,
        fun cs r he' => absurd (he.symm.trans he') (by simp)⟩
  | @finish w p hp he ht =>
    have hfine := h.procs w p hp
    obtain ⟨s, hs, hholds⟩ := hfine.running he
    obtain rfl : s = .durable := by simpa [ht, check] using hs
    refine h.moved (.refl w x.fs) h.tidy (h.now w)
      ⟨hfine.last, hfine.deferred, fun he' => (by cases he'), fun cs r he' => ?_⟩
    obtain ⟨rfl, rfl⟩ : p.deferred = cs ∧ true = r := by simpa using he'
    exact ⟨hfine.deferred, fun _ => hholds⟩
  | @clean w p c rest r ok fs fd hp he hx =>
    have hfine := h.procs w p hp
    obtain ⟨hall, hdurable⟩ := hfine.ending _ _ he
    rw [List.all_cons, Bool.and_eq_true] at hall
    obtain ⟨hloc, hnow⟩ := exec_harmless hall.1 hx
    have htidy := h.tidy.exec (Call.harmless_allowed hall.1) hx
    refine h.moved hloc htidy ?_ ⟨hfine.last, hfine.deferred, fun he' => (by cases he'), ?_⟩
    · rw [hloc.look_path htidy hnow]
      exact h.now w
    · intro cs r' he'
      obtain ⟨rfl, rfl⟩ : rest = cs ∧ r = r' := by simpa using he'
      refine ⟨hall.2, fun hr d hd => ?_⟩
      rw [hloc.path htidy hd]
      rcases hloc.disk d hd with hd | rfl
      · exact hdurable hr d hd
      · rw [hnow]
        exact hdurable hr _ x.fs.dir.now_mem

/-- **Files are replaced atomically**: a file that is read, now or after a power failure at any
    point, holds what the last successful call has written or what a later one was to write. -/
theorem replace_atomic (hprog : ∀ w, check .start (program w) = true)
    (h : Runs program accepts x) :
    Legal x.history ∧ ∀ w, x.fs.read w ∈ recent w x.history := by
  have hfine : x.Fine := by
    induction h with
    | refl => exact World.fine_init
    | tail _ hstep ih => exact ih.step hprog hstep
  refine ⟨hfine.legal, fun w => ?_⟩
  obtain ⟨r, hr, hlook⟩ := hfine.now w
  have hread : x.fs.read w = r := by
    have hnow := congrArg (Option.map Cached.now) hlook
    rw [FS.look, Option.map_map, Option.map_map] at hnow
    exact hnow.trans (by simp [Function.comp_def])
  rw [hread]
  exact hr

end Runs

end KvStore.FileSystem
