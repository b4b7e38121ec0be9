import KvStore.Consensus.Histories
import KvStore.Raft.LogMoves
import KvStore.Raft.Reordering
import KvStore.Raft.StateMachineSafety

/-!
# Log matching with compaction

Two nodes that retain an entry of one term at one index have the same command there, and
the same terms at every smaller index that both still know; and terms never decrease
along a log (`log_matching`). This needs no vote, no commitment and no store that is up
to date: it holds in every run in which no term has two leaders, if the log is never
joined to something that does not fit (`Process.joinsFit`):

* an accepted request that reaches over the base has the base's term there (`mergeEntries`
  skips what the base covers without looking at it);
* a snapshot whose index lies inside the log has the log's term there
  (`HandleInstallSnapshot` keeps what follows without looking at it), and a term at all;
* the label of a compaction is still the term of the log at that index.

`snapshot_before_conflict` is a run in which the second condition fails: a snapshot of term 2
is installed before an entry of term 1.
-/

namespace KvStore.Raft

open KvStore.Storage (Command Bytes)
open KvStore.Consensus (Traced Extends Ordered)

variable {Id : Type}

/-! ## The property -/

namespace Node

/-- The term a node still knows at an index: that of its base or of a retained entry. -/
def knownTerm (n : Node Id) (k : ℕ) : Option ℤ :=
  if k = n.lastIncludedIndex then some n.lastIncludedTerm else (n.entryAt k).map Entry.term

/-- Entries of one term at one index have one command and come after the same terms. -/
def LogMatching (n n' : Node Id) : Prop :=
  ∀ (k : ℕ) (e e' : Entry), n.entryAt k = some e → n'.entryAt k = some e' → e.term = e'.term →
    e.cmd = e'.cmd ∧
      ∀ j < k, ∀ t t', n.knownTerm j = some t → n'.knownTerm j = some t' → t = t'

/-- From the base on, terms never decrease. -/
def TermsNondecreasing (n : Node Id) : Prop :=
  (n.lastIncludedTerm :: n.log.map Entry.term).Pairwise (· ≤ ·)

instance (n : Node Id) : Decidable n.TermsNondecreasing :=
  inferInstanceAs (Decidable (List.Pairwise _ _))

end Node

/-! ## What a whole log gives -/

theorem lastTerm_le {l : List Entry} {t : ℤ} (h0 : 0 ≤ t) (h : ∀ e ∈ l, e.term ≤ t) :
    lastTerm l ≤ t := by
  unfold lastTerm
  cases hlast : l.getLast? with
  | none => exact h0
  | some e => exact h e (List.mem_of_getLast? hlast)

namespace Node

variable {n n' : Node Id} {l l' : List Entry} {made : ℤ → List Entry} {t : ℤ}

theorem Holds.knownTerm_some (h : n.Holds l) {k : ℕ} (hk : n.knownTerm k = some t) :
    t = lastTerm (l.take k) := by
  unfold knownTerm at hk
  split_ifs at hk with hb
  · rw [hb, ← h.base_term]
    exact (Option.some.inj hk).symm
  · obtain ⟨e, he, rfl⟩ := Option.map_eq_some_iff.mp hk
    obtain ⟨hlt, hget⟩ := h.entryAt_some he
    rw [← lastTerm_take_succ hget, Nat.sub_add_cancel (by omega)]

/-- Nodes whose logs are traced to the same histories match. -/
theorem Holds.logMatching (h : n.Holds l) (h' : n'.Holds l') (ht : Traced Entry.term made l)
    (ht' : Traced Entry.term made l') : LogMatching n n' := by
  intro k e e' he he' hterm
  obtain ⟨hk, hget⟩ := h.entryAt_some he
  obtain ⟨_, hget'⟩ := h'.entryAt_some he'
  have htake := ht.take_eq ht' hget hget' hterm
  rw [Nat.sub_add_cancel (by omega)] at htake
  constructor
  · have hcmd := congrArg (fun x => x[k - 1]?) htake
    simp only [List.getElem?_take_of_lt (show k - 1 < k by omega), hget, hget'] at hcmd
    rw [Option.some.inj hcmd]
  · intro j hj s s' hs hs'
    have hpre := congrArg (List.take j) htake
    rw [List.take_take, List.take_take, min_eq_left hj.le] at hpre
    rw [h.knownTerm_some hs, h'.knownTerm_some hs', hpre]

theorem Holds.termsNondecreasing (h : n.Holds l) (ho : Ordered Entry.term 0 t l) :
    n.TermsNondecreasing := by
  unfold TermsNondecreasing
  have hsplit := ho.sorted
  rw [← List.take_append_drop n.lastIncludedIndex l] at hsplit
  obtain ⟨-, hdrop, hcross⟩ := List.pairwise_append.mp hsplit
  rw [h.log_eq, h.base_term, List.pairwise_cons, List.pairwise_map]
  refine ⟨?_, hdrop⟩
  intro t' ht'
  obtain ⟨e, he, rfl⟩ := List.mem_map.mp ht'
  exact lastTerm_le (ho.low e (List.mem_of_mem_drop he)) fun a ha => hcross a ha e he

end Node

/-! ## Logs that leaders have written -/

/-- The cluster has more than one member. -/
def Config.Several (cfg : Config Id) : Prop := ∃ i ∈ cfg.members, cfg.peers i ≠ []

/-- Terms up to `t` that never decrease and, in a cluster of several members, the history of
    each entry's term up to that entry. A member on its own may lose entries in a restart and
    write others in the same term. -/
structure Written (cfg : Config Id) (made : ℤ → List Entry) (t : ℤ) (l : List Entry) : Prop where
  ordered : Ordered Entry.term 0 t l
  traced : cfg.Several → Traced Entry.term made l

namespace Written

variable {cfg : Config Id} {made made' : ℤ → List Entry} {t t' : ℤ} {l l' : List Entry}

theorem nil (cfg : Config Id) (made : ℤ → List Entry) (t : ℤ) : Written cfg made t [] :=
  ⟨.nil _ _ _, fun _ j e h => by simp at h⟩

theorem mono (h : Written cfg made t l) (ht : t ≤ t') (hm : Extends made made') :
    Written cfg made' t' l :=
  ⟨h.ordered.mono ht, fun hs => (h.traced hs).mono hm⟩

theorem of_le (h : Written cfg made t l) (hl : l' <+: l) : Written cfg made t l' :=
  ⟨h.ordered.of_le hl, fun hs => (h.traced hs).of_le hl⟩

theorem concat (h : Written cfg made t l) (ht : 0 ≤ t) (cmd : Command)
    (hm : cfg.Several → l ++ [⟨t, cmd⟩] <+: made t) : Written cfg made t (l ++ [⟨t, cmd⟩]) :=
  ⟨h.ordered.concat rfl ht, fun hs => (h.traced hs).concat (hm hs)⟩

end Written

/-- What a snapshot of index `idx` and term `label` stands for, if `label` is a term. -/
def SnapshotOf (cfg : Config Id) (made : ℤ → List Entry) (t : ℤ) (idx : ℕ) (label : ℤ) : Prop :=
  label = -1 ∨ ∃ C, Written cfg made t C ∧ C.length = idx ∧ lastTerm C = label

theorem SnapshotOf.mono {cfg : Config Id} {made made' : ℤ → List Entry} {t t' : ℤ} {idx : ℕ}
    {label : ℤ} (h : SnapshotOf cfg made t idx label) (ht : t ≤ t') (hm : Extends made made') :
    SnapshotOf cfg made' t' idx label :=
  h.imp_right fun ⟨C, hC, h1, h2⟩ => ⟨C, hC.mono ht hm, h1, h2⟩

namespace Node

variable {cfg : Config Id} {made : ℤ → List Entry} {n : Node Id} {l : List Entry}

/-- The label `logTermAt` gives. -/
theorem Holds.snapshotOf (h : n.Holds l) (hw : Written cfg made n.term l) (idx : ℕ) :
    SnapshotOf cfg made n.term idx (n.logTermAt idx) := by
  by_cases h0 : idx = 0
  · subst h0
    exact .inr ⟨[], .nil _ _ _, rfl, rfl⟩
  by_cases hk : n.lastIncludedIndex ≤ idx ∧ idx ≤ l.length
  · refine .inr ⟨l.take idx, hw.of_le ( List.take_prefix _ _), ?_, ?_⟩
    · rw [List.length_take, min_eq_left hk.2]
    · rw [h.logTermAt_eq hk.1 hk.2]
  · exact .inl (h.logTermAt_unknown h0 (by omega))

end Node

/-! ## Joining logs -/

namespace Process

/-- Where the section joins the log to something else, the terms fit. -/
def joinsFit (p : Process Id) : Input Id → Bool
  | .appendEntries req =>
    req.term < p.node.term ∨ p.node.checkPrevLog req.prevLogIndex req.prevLogTerm = false ∨
      p.node.lastIncludedIndex ≤ req.prevLogIndex ∨
      req.prevLogIndex + req.entries.length ≤ p.node.lastIncludedIndex ∨
      (req.entries[(p.node.lastIncludedIndex - req.prevLogIndex - 1).toNat]?).map Entry.term =
        some p.node.lastIncludedTerm
  | .installSnapshot req =>
    req.term < p.node.term ∨ req.lastIncludedIndex ≤ p.node.lastApplied ∨
      (req.lastIncludedTerm ≠ -1 ∧ (p.node.lastLogIndex ≤ req.lastIncludedIndex ∨
        p.node.logTermAt req.lastIncludedIndex = req.lastIncludedTerm))
  | .compactLog =>
    match p.compactor with
    | .labelled idx label =>
      idx ≤ p.node.lastIncludedIndex ∨ idx = p.node.lastLogIndex ∨
        (idx < p.node.lastLogIndex ∧ label = p.node.logTermAt idx)
    | _ => true
  | _ => true

end Process

variable [DecidableEq Id]

namespace Node

variable {cfg : Config Id} {made : ℤ → List Entry} {n : Node Id} {l R : List Entry} {t : ℤ}

/-- An accepted request whose entries fit the base leaves a beginning of the sender's log, or of
    the node's own. -/
theorem Holds.accepted (h : n.Holds l) (hs : cfg.Several) {req : AppendEntriesRequest Id}
    {m prev : ℕ} (hw : Written cfg made n.term l) (hR : Written cfg made t R)
    (hcar : Carries req R m prev) (ht : ¬ req.term < n.term)
    (hc : n.checkPrevLog req.prevLogIndex req.prevLogTerm = true)
    (hfit : n.lastIncludedIndex ≤ req.prevLogIndex ∨
      req.prevLogIndex + req.entries.length ≤ n.lastIncludedIndex ∨
      (req.entries[(n.lastIncludedIndex - req.prevLogIndex - 1).toNat]?).map Entry.term =
        some n.lastIncludedTerm) :
    ∃ l', (n.handleAppendEntries req).1.Holds l' ∧ (l' <+: R ∨ l' <+: l) := by
  have hmatch : ∀ (j : ℕ) (e e' : Entry), l[j]? = some e → R[j]? = some e' → e.term = e'.term →
      l.take (j + 1) = R.take (j + 1) := fun j e e' => (hw.traced hs).take_eq (hR.traced hs)
  have hnonneg : ∀ e ∈ l, 0 ≤ e.term := hw.ordered.low
  -- it is enough that the base is part of the sender's log
  have hjoin : n.lastIncludedIndex ≤ R.length →
      l.take n.lastIncludedIndex = R.take n.lastIncludedIndex →
      ∃ l', (n.handleAppendEntries req).1.Holds l' ∧ (l' <+: R ∨ l' <+: l) := by
    intro hle hb
    have hlogs : LogsMatch n l R := ⟨h, hle, hb, hmatch, hnonneg⟩
    exact ⟨_, (hlogs.accepted hcar (not_lt.mp ht) hc).1, .inl ( List.take_prefix _ _)⟩
  have ⟨hprev, hm, hcase⟩ := hcar
  by_cases hpb : n.lastIncludedIndex ≤ prev
  · -- the check covers the base
    have hle : prev ≤ m := by
      by_contra hlt
      have := h.prev_below hcar hc (not_le.mp hlt) hnonneg
      omega
    have hag := h.prev_agrees (b := n.lastIncludedIndex - 1) hcar hc hle (by omega) ?_
      fun j e e' _ => hmatch j e e'
    · refine hjoin (by omega) ?_
      have := congrArg (List.take n.lastIncludedIndex) hag
      rwa [List.take_take, List.take_take, min_eq_left (by omega)] at this
    · intro hpb
      have h0 : prev = 0 := by omega
      rw [h0, List.take_zero, List.take_zero]
  rcases hfit with hbase | hstop | hentry
  · omega
  · -- nothing but the base is left
    have hc₁ := (follow_checkPrevLog n req.term req.leaderID _ _).trans hc
    obtain ⟨e1, e2, e3, -⟩ := handleAppendEntries_accepted ht hc₁
    have hsame := (follow_quiet n req.term req.leaderID).sameLog
    have hstop' : req.prevLogIndex + req.entries.length ≤
        (n.follow req.term req.leaderID).lastIncludedIndex := by
      rw [hsame.base]
      exact hstop
    have hcov := mergeEntries_covered (hsame.holds h) hstop'
    exact ⟨_, hcov.congr e1 e2 e3, .inr ( List.take_prefix _ _)⟩
  · -- the request has an entry at the base
    obtain ⟨en, hen, hterm⟩ := Option.map_eq_some_iff.mp hentry
    have hne : req.entries ≠ [] := by
      intro hnil
      rw [hnil] at hen
      simp at hen
    obtain ⟨hle, hes, _⟩ : prev ≤ m ∧ _ ∧ _ := hcase.resolve_right fun hc => hne hc.2.1
    have hget : R[n.lastIncludedIndex - 1]? = some en := by
      rw [hes, hprev, List.getElem?_drop] at hen
      have hidx : prev + ((n.lastIncludedIndex : ℤ) - prev - 1).toNat = n.lastIncludedIndex - 1 := by
        omega
      rw [hidx] at hen
      exact Consensus.getElem?_of_le ( List.take_prefix _ _) hen
    have hbl := h.base_le
    have hget' := List.getElem?_eq_getElem (show n.lastIncludedIndex - 1 < l.length by omega)
    have hb1 : n.lastIncludedIndex - 1 + 1 = n.lastIncludedIndex := by omega
    have hlast := lastTerm_take_succ hget'
    rw [hb1, ← h.base_term, ← hterm] at hlast
    have hag := hmatch _ _ _ hget' hget hlast.symm
    rw [hb1] at hag
    have hlen := (List.getElem?_eq_some_iff.mp hget).1
    exact hjoin (by omega) hag

end Node

namespace Node

variable {cfg : Config Id} {made : ℤ → List Entry} {n : Node Id} {l C : List Entry} {t : ℤ}

/-- A snapshot that fits leaves the log it was taken from, or the node's own. -/
theorem Holds.installed (h : n.Holds l) (hs : cfg.Several) {req : InstallSnapshotRequest Id}
    (hw : Written cfg made n.term l) (hC : Written cfg made t C)
    (hidx : req.lastIncludedIndex = C.length) (hlabel : lastTerm C = req.lastIncludedTerm)
    (hb : n.lastIncludedIndex < C.length)
    (hfit : n.lastLogIndex ≤ req.lastIncludedIndex ∨
      n.logTermAt req.lastIncludedIndex = req.lastIncludedTerm) :
    ∃ l', ((n.follow req.term req.leaderID).adoptSnapshot req).Holds l' ∧ (l' = C ∨ l' = l) := by
  have hsame := (follow_quiet n req.term req.leaderID).sameLog
  refine ⟨_, adoptSnapshot_holds (hsame.holds h) hidx hlabel.symm (hsame.base ▸ hb.le), ?_⟩
  by_cases hlen : l.length ≤ C.length
  · rw [List.drop_eq_nil_of_le hlen, List.append_nil]
    exact .inl rfl
  · -- the log has an entry of the snapshot's term at its index
    have hterm := hfit.resolve_left fun hle => hlen (by
      rw [h.lastLogIndex_eq, hidx] at hle
      omega)
    rw [hidx, h.logTermAt_eq hb.le (by omega), ← hlabel] at hterm
    have hsucc : C.length - 1 + 1 = C.length := by omega
    have hget := List.getElem?_eq_getElem (show C.length - 1 < l.length by omega)
    have hget' := List.getElem?_eq_getElem (show C.length - 1 < C.length by omega)
    have hlast := lastTerm_take_succ hget
    have hlast' := lastTerm_take_succ hget'
    rw [hsucc] at hlast hlast'
    rw [List.take_length] at hlast'
    have htake := (hw.traced hs).take_eq (hC.traced hs) hget hget'
      (by rw [← hlast, ← hlast', hterm])
    rw [hsucc, List.take_length] at htake
    right
    conv_lhs => rw [← htake, List.length_take, min_eq_left (by omega), List.take_append_drop]

omit [DecidableEq Id] in
/-- A compaction with the term of its index leaves the whole log alone. -/
theorem Holds.compacted (h : n.Holds l) {idx : ℕ} {label : ℤ}
    (hfit : idx ≤ n.lastIncludedIndex ∨ idx = n.lastLogIndex ∨
      (idx < n.lastLogIndex ∧ label = n.logTermAt idx)) : (n.compactLog idx label).Holds l := by
  have hb := h.base_le
  rcases hfit with hle | hlast | ⟨hlt, hlabel⟩
  · exact compactLog_holds h (hle.trans hb) (.inl hle)
  · -- the label is not used
    have hswap : n.compactLog idx label = n.compactLog idx n.lastLogTerm := by
      unfold compactLog
      simp only [hlast, ge_iff_le, le_refl, ite_true]
    rw [h.lastLogIndex_eq] at hlast
    rw [hswap]
    refine compactLog_holds h hlast.le (.inr ?_)
    rw [h.lastLogTerm_eq, hlast, List.take_length]
  · rw [h.lastLogIndex_eq] at hlt
    rcases Nat.le_total idx n.lastIncludedIndex with hle | hge
    · exact compactLog_holds h hlt.le (.inl hle)
    · rw [h.logTermAt_eq hge hlt.le] at hlabel
      exact compactLog_holds h hlt.le (.inr hlabel)

end Node

/-! ## Terms -/

/-- What holds of the terms of a process and of the terms it has led, whatever happens. -/
structure TermInv (cfg : Config Id) (i : Id) (p : Process Id) (led : ℤ → Prop) : Prop where
  ident : p.node.ident = (i, cfg.peers i)
  clean : p.node.dirty = false → p.Clean
  nonneg : 0 ≤ p.disk.term
  disk_le : p.disk.term ≤ p.node.term
  asked : ∀ el, p.election = some el → el.req.term ≤ p.node.term ∧
    (el.campaigning = true → el.req.term ≤ p.disk.term)
  led_le : ∀ T, led T → T ≤ p.disk.term
  led_once : ∀ T, led T → p.node.term = T → p.node.role ≠ .candidate

namespace TermInv

variable {cfg : Config Id} {i : Id} {p : Process Id} {led led' : ℤ → Prop} {inp : Input Id}
  {e : Process.Effect Id}

omit [DecidableEq Id] in
theorem init (cfg : Config Id) (i : Id) :
    TermInv cfg i (Process.init i (cfg.peers i)) fun _ => False where
  ident := rfl
  clean := fun _ => rfl
  nonneg := le_rfl
  disk_le := le_rfl
  asked := by simp [Process.init]
  led_le := by simp
  led_once := by simp

/-- An election whose requests have gone out asked for a term that the store has. -/
theorem asked_of_step (h : TermInv cfg i p led) (hstep : p.step inp = some e) {el : Election Id}
    (hel : e.proc.election = some el) : el.req.term ≤ e.proc.node.term ∧
      (el.campaigning = true → el.req.term ≤ e.proc.disk.term) := by
  obtain ⟨hdisk, -⟩ := Process.disk_term_le_of_step h.disk_le hstep
  have hr : inp ≠ .restart := by
    rintro rfl
    simp only [Process.step, Option.some.injEq] at hstep
    rw [← hstep] at hel
    cases hel
  have hterm := Process.term_le_of_step hstep hr
  have hkeep : ∀ el₀, p.election = some el₀ → el₀.req.term ≤ e.proc.node.term ∧
      (el₀.campaigning = true → el₀.req.term ≤ e.proc.disk.term) := fun el₀ h₀ =>
    ⟨(h.asked el₀ h₀).1.trans hterm, fun hc => ((h.asked el₀ h₀).2 hc).trans hdisk⟩
  cases Process.electionMove hstep hel with
  | start hi =>
    subst hi
    simp only [Process.step] at hstep
    split_ifs at hstep
    cases hstep
    exact ⟨le_refl _, (by simp)⟩
  | keep _ h₀ => exact hkeep _ h₀
  | count el₀ _ _ h₀ _ _ => exact hkeep el₀ h₀
  | drop el₀ _ h₀ => exact hkeep el₀ h₀
  | launch el₀ saved h₀ hi hp =>
    refine ⟨(hkeep el₀ h₀).1, fun _ => ?_⟩
    subst hi
    have hclean : e.proc.Clean := by
      simp only [Process.step, h₀] at hstep
      split_ifs at hstep
      cases hstep
      exact Process.persist_clean h.clean hp
    rw [hclean]
    exact (hkeep el₀ h₀).1

/-- A node that wins an election has the term in its store and is no candidate any more. -/
theorem led_of_step (h : TermInv cfg i p led) (hstep : p.step inp = some e)
    (hnew : ∀ T, led' T → led T ∨ .becameLeader p.node.id T ∈ e.events) {T : ℤ} (hT : led' T) :
    T ≤ e.proc.disk.term ∧ (e.proc.node.term = T → e.proc.node.role ≠ .candidate) := by
  obtain ⟨hdisk, -⟩ := Process.disk_term_le_of_step h.disk_le hstep
  rcases hnew T hT with hold | hwon
  · have hle := h.led_le T hold
    refine ⟨hle.trans hdisk, fun heq hcand => ?_⟩
    by_cases hr : inp = .restart
    · subst hr
      simp only [Process.step, Option.some.injEq] at hstep
      rw [← hstep] at hcand
      simp only [Process.restart, Node.setRaftStore, Node.new] at hcand
      split_ifs at hcand
    · -- the node was in term `T` already, and no candidate
      have hterm := Process.term_le_of_step hstep hr
      have hdn := h.disk_le
      rcases Process.candidate_of_step hstep hr hcand with hc | hlt
      · exact h.led_once T hold (by omega) hc
      · omega
  · cases Process.show_of_step hstep hwon with
    | becameLeader el hel hc hv hr ht =>
      obtain ⟨hnode, -⟩ := Process.endElection_won hstep hel hv hr ht
      refine ⟨?_, fun _ => ?_⟩
      · rw [ht]
        exact ((h.asked el hel).2 hc).trans hdisk
      · rw [hnode]
        simp [Node.becomeLeader]

theorem of_step (h : TermInv cfg i p led) (hstep : p.step inp = some e)
    (hnew : ∀ T, led' T → led T ∨ .becameLeader p.node.id T ∈ e.events) :
    TermInv cfg i e.proc led' where
  ident := (Process.step_ident hstep).trans h.ident
  clean := Process.clean_of_step h.clean hstep
  nonneg := h.nonneg.trans (Process.disk_term_le_of_step h.disk_le hstep).1
  disk_le := (Process.disk_term_le_of_step h.disk_le hstep).2
  asked := fun _ => h.asked_of_step hstep
  led_le := fun _ hT => (h.led_of_step hstep hnew hT).1
  led_once := fun _ hT => (h.led_of_step hstep hnew hT).2

end TermInv

/-! ## The invariant -/

omit [DecidableEq Id] in
theorem Config.Several.peers_ne {cfg : Config Id} (hs : cfg.Several) {i : Id}
    (hi : i ∈ cfg.members) : cfg.peers i ≠ [] := by
  intro hnil
  obtain ⟨j, hj, hne⟩ := hs
  rw [Config.members_single hi hnil] at hj
  rw [List.mem_singleton.mp hj] at hne
  exact hne hnil

section Fits

variable {cfg : Config Id} {made made' : ℤ → List Entry} {t t' : ℤ}

/-- A goroutine on its way to send a snapshot. -/
def TaskFits (cfg : Config Id) (made : ℤ → List Entry) (t : ℤ) : Task Id → Prop
  | .installing _ => cfg.Several
  | .snapIndex _ => cfg.Several
  | .snapTerm _ _ => cfg.Several
  | .snapSend _ idx label _ => cfg.Several ∧ SnapshotOf cfg made t idx label
  | _ => True

/-- A request carries the history of its term; a snapshot is one of a log. -/
def MsgFits (cfg : Config Id) (made : ℤ → List Entry) : Msg Id → Prop
  | .appendReq _ req => cfg.Several ∧ ∃ m prev, Node.Carries req (made req.term) m prev
  | .snapReq _ req => cfg.Several ∧ ∃ idx : ℕ, req.lastIncludedIndex = idx ∧
      SnapshotOf cfg made req.term idx req.lastIncludedTerm
  | _ => True

omit [DecidableEq Id] in
theorem TaskFits.mono {task : Task Id} (h : TaskFits cfg made t task) (ht : t ≤ t')
    (hm : Extends made made') : TaskFits cfg made' t' task := by
  cases task with
  | snapSend _ _ _ _ => exact ⟨h.1, h.2.mono ht hm⟩
  | _ => exact h

omit [DecidableEq Id] in
theorem MsgFits.mono {m : Msg Id} (h : MsgFits cfg made m) (hm : Extends made made') :
    MsgFits cfg made' m := by
  cases m with
  | appendReq _ req =>
    obtain ⟨hs, m, prev, hcar⟩ := h
    exact ⟨hs, m, prev, hcar.mono (hm _)⟩
  | snapReq _ req =>
    obtain ⟨hs, idx, hidx, hsnap⟩ := h
    exact ⟨hs, idx, hidx, hsnap.mono le_rfl hm⟩
  | _ => trivial

end Fits

namespace Cluster

/-- No term has two leaders. -/
def OneLeader (c : Cluster Id) : Prop :=
  ∀ T x y, .becameLeader x T ∈ c.events → .becameLeader y T ∈ c.events → x = y

/-- The node stands for the log `l`; if it leads, this is the history of its term. -/
structure NodeLog (cfg : Config Id) (c : Cluster Id) (made : ℤ → List Entry) (i : Id)
    (l : List Entry) : Prop where
  holds : (c.proc i).node.Holds l
  written : Written cfg made (c.proc i).node.term l
  leads : cfg.Several → (c.proc i).node.role = .leader →
    .becameLeader i (c.proc i).node.term ∈ c.events ∧ made (c.proc i).node.term = l
  base_le : (c.proc i).node.lastIncludedIndex ≤ (c.proc i).node.lastApplied

/-- The histories of all terms explain every log, store, request and snapshot. -/
structure Histories (cfg : Config Id) (c : Cluster Id) (made : ℤ → List Entry) : Prop where
  terms : ∀ i, TermInv cfg i (c.proc i) fun T => .becameLeader i T ∈ c.events
  nodes : ∀ i ∈ cfg.members, ∃ l, NodeLog cfg c made i l
  disks : ∀ i ∈ cfg.members, ∃ l, (c.proc i).restart.node.Holds l ∧
    Written cfg made (c.proc i).disk.term l
  tasks : ∀ i ∈ cfg.members, ∀ t ∈ (c.proc i).tasks, TaskFits cfg made (c.proc i).node.term t
  net : ∀ m ∈ c.net, MsgFits cfg made m
  led : ∀ T, made T ≠ [] → ∃ j, .becameLeader j T ∈ c.events
  reign : ∀ T, Written cfg made T (made T)

omit [DecidableEq Id] in
theorem NodeLog.init (cfg : Config Id) (i : Id) (hi : i ∈ cfg.members) :
    NodeLog cfg (Cluster.init cfg) (fun _ => []) i [] where
  holds := ⟨le_rfl, rfl, rfl⟩
  written := .nil _ _ _
  leads := by
    intro hs hr
    simp [Cluster.init, Process.init, Node.new, hs.peers_ne hi] at hr
  base_le := le_rfl

omit [DecidableEq Id] in
theorem Histories.init (cfg : Config Id) : Histories cfg (Cluster.init cfg) fun _ => [] where
  terms := by
    intro i
    refine { TermInv.init cfg i with led_le := ?_, led_once := ?_ }
    · intro T hT
      cases hT
    · intro T hT
      cases hT
  nodes := fun i hi => ⟨[], .init cfg i hi⟩
  disks := fun i _ => ⟨[], ⟨le_rfl, rfl, rfl⟩, .nil _ _ _⟩
  tasks := by simp [Cluster.init, Process.init]
  net := by simp [Cluster.init]
  led := fun _ h => absurd rfl h
  reign := fun _ => .nil _ _ _

variable {cfg : Config Id} {c : Cluster Id} {i : Id} {inp : Input Id} {e : Process.Effect Id}
  {made made' : ℤ → List Entry}

namespace Histories

omit [DecidableEq Id] in
theorem id_eq (h : Histories cfg c made) (j : Id) : (c.proc j).node.id = j :=
  congrArg Prod.fst (h.terms j).ident

omit [DecidableEq Id] in
theorem several (h : Histories cfg c made) (hi : i ∈ cfg.members) {q : Id}
    (hq : q ∈ (c.proc i).node.peers) : cfg.Several := by
  refine ⟨i, hi, fun hnil => ?_⟩
  have hpeers : (c.proc i).node.peers = cfg.peers i := congrArg Prod.snd (h.terms i).ident
  rw [hpeers, hnil] at hq
  cases hq

theorem terms_step (h : Histories cfg c made) (hstep : (c.proc i).step inp = some e) (j : Id) :
    TermInv cfg j ((c.update i e).proc j) fun T => .becameLeader j T ∈ (c.update i e).events := by
  by_cases hj : j = i
  · subst hj
    rw [update_proc_self]
    refine (h.terms j).of_step hstep fun T hT => ?_
    rw [h.id_eq j]
    exact (mem_update_events ..).mp hT
  · rw [update_proc_ne _ _ hj]
    have hold : ∀ T, .becameLeader j T ∈ (c.update i e).events → .becameLeader j T ∈ c.events := by
      intro T hT
      refine ((mem_update_events ..).mp hT).resolve_right fun hnew => hj ?_
      cases Process.show_of_step hstep hnew with
      | becameLeader => exact h.id_eq i
    exact
      { h.terms j with
        led_le := fun T hT => (h.terms j).led_le T (hold T hT)
        led_once := fun T hT => (h.terms j).led_once T (hold T hT) }

theorem tasks_step (h : Histories cfg c made) (hi : i ∈ cfg.members)
    (hstep : (c.proc i).step inp = some e) (hm : Extends made made') {t : Task Id}
    (ht : t ∈ e.proc.tasks) : TaskFits cfg made' e.proc.node.term t := by
  have hold := h.tasks i hi
  rcases Process.task_of_step hstep ht with ⟨htask, hr⟩ | hspawn
  · exact (hold t htask).mono (Process.term_le_of_step hstep hr) hm
  · cases hspawn with
    | installing q _ hq => exact h.several hi hq
    | snapIndex q htask => exact hold _ htask
    | snapTerm q htask => exact hold _ htask
    | snapSend q idx data htask =>
      obtain ⟨l, hl⟩ := h.nodes i hi
      have hsnap := hl.holds.snapshotOf hl.written idx
      exact ⟨hold _ htask, hsnap.mono (Process.term_le_of_step hstep (by simp)) hm⟩
    | _ => trivial

theorem net_step (h : Histories cfg c made) (hi : i ∈ cfg.members)
    (hstep : (c.proc i).step inp = some e) {m : Msg Id} (hsent : m ∈ e.sent) :
    MsgFits cfg made m := by
  cases Process.send_of_step hstep hsent with
  | appendReq q hl hq hf =>
    have hs := h.several hi hq
    obtain ⟨l, hlog⟩ := h.nodes i hi
    obtain ⟨-, hmade⟩ := hlog.leads hs hl
    have hholds : (c.proc i).node.withRepl.Holds l := hlog.holds.congr rfl rfl rfl
    refine ⟨hs, _, _, Node.appendRequest_carries hholds ?_ hf⟩
    change l <+: made (c.proc i).node.term
    rw [hmade]
  | snapReq q idx label data htask =>
    have htask' := h.tasks i hi _ htask
    exact ⟨htask'.1, idx, rfl, htask'.2⟩
  | _ => trivial

end Histories

/-- The node `i` makes a step: its own log is explained, and the histories of the terms that
    other nodes lead stay. -/
theorem Histories.update (h : Histories cfg c made) (hi : i ∈ cfg.members)
    (hstep : (c.proc i).step inp = some e) (hm : Extends made made')
    (hnode : ∃ l, NodeLog cfg (c.update i e) made' i l)
    (hothers : cfg.Several → ∀ j ∈ cfg.members, j ≠ i → (c.proc j).node.role = .leader →
      made' (c.proc j).node.term = made (c.proc j).node.term)
    (hled : ∀ T, made' T ≠ [] → ∃ j, .becameLeader j T ∈ (c.update i e).events)
    (hreign : ∀ T, Written cfg made' T (made' T)) : Histories cfg (c.update i e) made' where
  terms := h.terms_step hstep
  nodes := by
    intro j hj
    by_cases hji : j = i
    · exact hji ▸ hnode
    · obtain ⟨l, hl⟩ := h.nodes j hj
      refine ⟨l, ?_, ?_, ?_, ?_⟩ <;> rw [update_proc_ne _ _ hji]
      · exact hl.holds
      · exact hl.written.mono le_rfl hm
      · intro hs hr
        obtain ⟨hev, hmade⟩ := hl.leads hs hr
        exact ⟨(mem_update_events ..).mpr (.inl hev), (hothers hs j hj hji hr).trans hmade⟩
      · exact hl.base_le
  disks := by
    intro j hj
    obtain ⟨l, hl, hw⟩ := h.disks j hj
    by_cases hji : j = i
    · subst hji
      rw [update_proc_self]
      rcases Process.disk_of_step hstep with hdisk | hclean
      · refine ⟨l, hl.congr ?_ ?_ ?_, hdisk ▸ hw.mono le_rfl hm⟩ <;>
          simp only [Process.restart, Node.setRaftStore, hdisk]
      · obtain ⟨l', hl'⟩ := hnode
        have hholds := hl'.holds
        have hwritten := hl'.written
        rw [update_proc_self] at hholds hwritten
        refine ⟨l', hholds.congr ?_ ?_ ?_, hclean.symm ▸ hwritten⟩ <;>
          simp only [Process.restart, Node.setRaftStore] <;> rw [hclean] <;> rfl
    · rw [update_proc_ne _ _ hji]
      exact ⟨l, hl, hw.mono le_rfl hm⟩
  tasks := by
    intro j hj t ht
    by_cases hji : j = i
    · subst hji
      rw [update_proc_self] at ht ⊢
      exact h.tasks_step hj hstep hm ht
    · rw [update_proc_ne _ _ hji] at ht ⊢
      exact (h.tasks j hj t ht).mono le_rfl hm
  net := by
    intro m hmem
    rcases (mem_update_net ..).mp hmem with hold | hnew
    · exact (h.net m hold).mono hm
    · exact (h.net_step hi hstep hnew).mono hm
  led := hled
  reign := hreign

/-- A section that writes no new entry leaves the histories as they are. -/
theorem Histories.of_log (h : Histories cfg c made) (hi : i ∈ cfg.members)
    (hstep : (c.proc i).step inp = some e) {l : List Entry} (hholds : e.proc.node.Holds l)
    (hw : Written cfg made e.proc.node.term l)
    (hleads : cfg.Several → e.proc.node.role = .leader →
      .becameLeader i e.proc.node.term ∈ c.events ∧ made e.proc.node.term = l)
    (hbase : e.proc.node.lastIncludedIndex ≤ e.proc.node.lastApplied) :
    Histories cfg (c.update i e) made := by
  refine h.update hi hstep (.refl made) ⟨l, ?_, ?_, ?_, ?_⟩ (fun _ _ _ _ _ => rfl) ?_ h.reign
  · rw [update_proc_self]
    exact hholds
  · rw [update_proc_self]
    exact hw
  · rw [update_proc_self]
    exact fun hs hr => (hleads hs hr).imp_left fun hev => (mem_update_events ..).mpr (.inl hev)
  · rw [update_proc_self]
    exact hbase
  · intro T hT
    obtain ⟨j, hj⟩ := h.led T hT
    exact ⟨j, (mem_update_events ..).mpr (.inl hj)⟩

/-- One term's history is continued by the node that leads it. -/
theorem Histories.of_reign (h : Histories cfg c made) (hone : OneLeader (c.update i e))
    (hi : i ∈ cfg.members) (hstep : (c.proc i).step inp = some e) {l : List Entry} {T : ℤ}
    (hT : e.proc.node.term = T) (hev : .becameLeader i T ∈ (c.update i e).events)
    (hpre : made T <+: l) (hholds : e.proc.node.Holds l)
    (hw : Written cfg (Function.update made T l) T l)
    (hbase : e.proc.node.lastIncludedIndex ≤ e.proc.node.lastApplied) :
    Histories cfg (c.update i e) (Function.update made T l) := by
  have hm : Extends made (Function.update made T l) := .update hpre
  refine h.update hi hstep hm ⟨l, ?_, ?_, ?_, ?_⟩ ?_ ?_ ?_
  · rw [update_proc_self]
    exact hholds
  · rw [update_proc_self, hT]
    exact hw
  · rw [update_proc_self, hT]
    exact fun _ _ => ⟨hev, Function.update_self ..⟩
  · rw [update_proc_self]
    exact hbase
  · -- no other node leads the term
    intro hs j hj hji hr
    obtain ⟨lj, hlj⟩ := h.nodes j hj
    refine Function.update_of_ne (fun heq => hji ?_) _ _
    refine hone T j i ((mem_update_events ..).mpr (.inl ?_)) hev
    rw [← heq]
    exact (hlj.leads hs hr).1
  · intro T' hne
    by_cases heq : T' = T
    · exact ⟨i, heq ▸ hev⟩
    · rw [Function.update_of_ne heq] at hne
      obtain ⟨j, hj⟩ := h.led T' hne
      exact ⟨j, (mem_update_events ..).mpr (.inl hj)⟩
  · intro T'
    by_cases heq : T' = T
    · rw [heq, Function.update_self]
      exact hw
    · rw [Function.update_of_ne heq]
      exact (h.reign T').mono le_rfl hm

section Steps

variable (h : Histories cfg c made) (hone : OneLeader (c.update i e)) (hi : i ∈ cfg.members)

include h hone hi

/-- A term that is won has no history yet, and starts with the winner's log. -/
theorem Histories.elected (hstep : (c.proc i).step .endElection = some e)
    {el : Election Id} (hel : (c.proc i).election = some el)
    (hv : majority (c.proc i).node.peers ≤ el.votes) (hr : (c.proc i).node.role = .candidate)
    (ht : (c.proc i).node.term = el.req.term) : ∃ made', Histories cfg (c.update i e) made' := by
  obtain ⟨l, hl⟩ := h.nodes i hi
  obtain ⟨hnode, hevents⟩ := endElection_effect hstep hel hv hr ht
  have hholds : e.proc.node.Holds l := hnode ▸ hl.holds.congr rfl rfl rfl
  have hterm : e.proc.node.term = (c.proc i).node.term := by rw [hnode]; rfl
  have hbase : e.proc.node.lastIncludedIndex ≤ e.proc.node.lastApplied := hnode ▸ hl.base_le
  have hev : .becameLeader i (c.proc i).node.term ∈ (c.update i e).events := by
    rw [mem_update_events, hevents, h.id_eq i]
    exact .inr (List.mem_singleton.mpr rfl)
  by_cases hs : cfg.Several
  · have hnone : made (c.proc i).node.term = [] := by
      by_contra hne
      obtain ⟨j, hj⟩ := h.led _ hne
      obtain rfl := hone _ j i ((mem_update_events ..).mpr (.inl hj)) hev
      exact (h.terms j).led_once _ hj rfl hr
    have hpre : made (c.proc i).node.term <+: l := hnone ▸ List.nil_prefix
    exact ⟨_, h.of_reign hone hi hstep hterm hev hpre hholds
      (hl.written.mono le_rfl (.update hpre)) hbase⟩
  · exact ⟨made, h.of_log hi hstep hholds (hterm ▸ hl.written) (fun hs' => absurd hs' hs) hbase⟩

/-- A leader continues the history of its term. -/
theorem Histories.proposed {cmd : Command} (hstep : (c.proc i).step (.propose cmd) = some e)
    (hnode : e.proc.node = (c.proc i).node.appendEntry cmd)
    (hr : (c.proc i).node.role = .leader) : ∃ made', Histories cfg (c.update i e) made' := by
  obtain ⟨l, hl⟩ := h.nodes i hi
  obtain ⟨hterm, -, -, -, hbase, happlied, -⟩ := (c.proc i).node.appendEntry_frame cmd
  have hholds := Node.appendEntry_holds hl.holds cmd
  have hble : e.proc.node.lastIncludedIndex ≤ e.proc.node.lastApplied := by
    rw [hnode, hbase, happlied]
    exact hl.base_le
  have h0 := (h.terms i).nonneg.trans (h.terms i).disk_le
  rw [← hnode] at hterm hholds
  by_cases hs : cfg.Several
  · obtain ⟨hev, hmade⟩ := hl.leads hs hr
    have hpre : made (c.proc i).node.term <+: l ++ [⟨(c.proc i).node.term, cmd⟩] :=
      hmade ▸ List.prefix_append _ _
    refine ⟨_, h.of_reign hone hi hstep hterm ((mem_update_events ..).mpr (.inl hev)) hpre hholds
      ?_ hble⟩
    refine (hl.written.mono le_rfl (.update hpre)).concat h0 cmd fun _ => ?_
    rw [Function.update_self]
  · refine ⟨made, h.of_log hi hstep hholds ?_ (fun hs' => absurd hs' hs) hble⟩
    rw [hterm]
    exact hl.written.concat h0 cmd fun hs' => absurd hs' hs

end Steps

/-- An accepted request leaves a beginning of a log that is explained. -/
theorem Histories.accepted (h : Histories cfg c made) (hi : i ∈ cfg.members)
    {req : AppendEntriesRequest Id} (hnet : .appendReq i req ∈ c.net)
    (hstep : (c.proc i).step (.appendEntries req) = some e)
    (ht : ¬ req.term < (c.proc i).node.term)
    (hc : (c.proc i).node.checkPrevLog req.prevLogIndex req.prevLogTerm = true)
    (hfit : (c.proc i).joinsFit (.appendEntries req) = true) :
    Histories cfg (c.update i e) made := by
  obtain ⟨l, hl⟩ := h.nodes i hi
  obtain ⟨hs, m, prev, hcar⟩ := h.net _ hnet
  simp only [Process.joinsFit, ht, hc, decide_eq_true_eq, false_or, Bool.true_eq_false] at hfit
  obtain ⟨l', hholds, hle⟩ := hl.holds.accepted hs hl.written (h.reign req.term) hcar ht hc hfit
  have hc₁ := (Node.follow_checkPrevLog (c.proc i).node req.term req.leaderID _ _).trans hc
  obtain ⟨-, hbase, -, happlied, hterm, hrole, -⟩ := Node.handleAppendEntries_accepted ht hc₁
  have hsame := (Node.follow_quiet (c.proc i).node req.term req.leaderID).sameLog
  have hnode := Process.appendEntries_node hstep
  rw [← hnode] at hholds hbase happlied hterm hrole
  refine h.of_log hi hstep hholds ?_ (fun _ hr => ?_) ?_
  · rw [hterm]
    rcases hle with hle | hle
    · exact (h.reign req.term).of_le hle
    · exact (hl.written.mono (not_lt.mp ht) (.refl made)).of_le hle
  · rw [hrole] at hr
    cases hr
  · rw [hbase, happlied]
    exact hsame.base.trans_le hl.base_le

/-- An installed snapshot leaves the log it was taken from, or the node's own. -/
theorem Histories.installed (h : Histories cfg c made) (hi : i ∈ cfg.members)
    {req : InstallSnapshotRequest Id} (hnet : .snapReq i req ∈ c.net)
    (hstep : (c.proc i).step (.installSnapshot req) = some e)
    (hnode : e.proc.node =
      ((c.proc i).node.follow req.term req.leaderID).adoptSnapshot req)
    (ht : ¬ req.term < (c.proc i).node.term)
    (happ : (c.proc i).node.lastApplied < req.lastIncludedIndex)
    (hfit : (c.proc i).joinsFit (.installSnapshot req) = true) :
    Histories cfg (c.update i e) made := by
  obtain ⟨l, hl⟩ := h.nodes i hi
  obtain ⟨hs, idx, hidx, hsnap⟩ := h.net _ hnet
  simp only [Process.joinsFit, ht, not_le.mpr happ, decide_eq_true_eq, false_or] at hfit
  obtain ⟨C, hC, rfl, hlabel⟩ := hsnap.resolve_left hfit.1
  have hb := hl.base_le
  obtain ⟨l', hholds, hle⟩ := hl.holds.installed hs hl.written hC hidx hlabel (by omega) hfit.2
  obtain ⟨hbase, -, happlied⟩ :=
    adoptSnapshot_fields ((c.proc i).node.follow req.term req.leaderID) hidx
  have hterm : (((c.proc i).node.follow req.term req.leaderID).adoptSnapshot req).term = req.term :=
    Node.follow_term ht _
  have hrole : (((c.proc i).node.follow req.term req.leaderID).adoptSnapshot req).role =
    .follower := Node.follow_role _ _ _
  rw [← hnode] at hholds hbase happlied hterm hrole
  refine h.of_log hi hstep hholds ?_ (fun _ hr => ?_) ?_
  · rw [hterm]
    rcases hle with rfl | rfl
    · exact hC
    · exact hl.written.mono (not_lt.mp ht) (.refl made)
  · rw [hrole] at hr
    cases hr
  · rw [hbase, happlied]
    exact le_max_right _ _

/-! ## Every step -/

theorem Histories.step (h : Histories cfg c made) (hone : OneLeader (c.update i e))
    (hi : i ∈ cfg.members) (hm : ∀ m, inp.msg i = some m → m ∈ c.net)
    (hfit : (c.proc i).joinsFit inp = true) (hstep : (c.proc i).step inp = some e) :
    ∃ made', Histories cfg (c.update i e) made' := by
  obtain ⟨l, hl⟩ := h.nodes i hi
  have hmove := Process.logMove hstep
  generalize hnode : e.proc.node = n' at hmove
  cases hmove with
  | keep hr hsame happ hlead =>
    have hterm := Process.term_le_of_step hstep hr
    rw [hnode] at hterm
    refine ⟨made, h.of_log hi hstep (hnode ▸ hsame.holds hl.holds) ?_ ?_ ?_⟩ <;> rw [hnode]
    · exact hl.written.mono hterm (.refl made)
    · intro hs hlead'
      obtain ⟨hrole, heq⟩ := hlead hlead'
      rw [heq]
      exact hl.leads hs hrole
    · rw [hsame.base]
      exact hl.base_le.trans happ
  | elected el hel hc hv hr ht => exact h.elected hone hi hstep hel hv hr ht
  | propose cmd hr => exact h.proposed hone hi hstep hnode hr
  | accept req ht hc => exact ⟨made, h.accepted hi (hm _ rfl) hstep ht hc hfit⟩
  | install req ht happ => exact ⟨made, h.installed hi (hm _ rfl) hstep hnode ht happ hfit⟩
  | compact idx label hcomp =>
    simp only [Process.joinsFit, hcomp, decide_eq_true_eq] at hfit
    have hb := (c.proc i).node.compactLog_ballot idx label
    simp only [Node.ballot, Prod.mk.injEq] at hb
    refine ⟨made, h.of_log hi hstep (hnode ▸ hl.holds.compacted hfit) ?_ ?_ ?_⟩ <;> rw [hnode]
    · rw [hb.1]
      exact hl.written
    · rw [hb.1, hb.2.2]
      exact hl.leads
    · obtain ⟨hbase, happlied⟩ := (c.proc i).node.compactLog_progress idx label
      rw [hbase, happlied hl.base_le]
      exact max_le_max_right idx hl.base_le
  | restart =>
    obtain ⟨ld, hld, hw⟩ := h.disks i hi
    refine ⟨made, h.of_log hi hstep (hnode ▸ hld) ?_ ?_ ?_⟩ <;> rw [hnode]
    · exact hw
    · intro hs hr
      have hpeers : (c.proc i).node.peers = cfg.peers i := congrArg Prod.snd (h.terms i).ident
      simp [Process.restart, Node.setRaftStore, Node.new, hpeers, hs.peers_ne hi] at hr
    · simp only [Process.restart, Node.setRaftStore]
      split_ifs <;> omega

theorem OneLeader.of_update (h : OneLeader (c.update i e)) : OneLeader c := fun T x y hx hy =>
  h T x y ((mem_update_events ..).mpr (.inl hx)) ((mem_update_events ..).mpr (.inl hy))

/-! ## Every run -/

/-- Where the section joins logs, the terms fit. -/
def fittingStep (c : Cluster Id) (i : Id) (inp : Input Id) : Prop :=
  (c.proc i).joinsFit inp = true

instance (c : Cluster Id) (i : Id) (inp : Input Id) : Decidable (c.fittingStep i inp) :=
  inferInstanceAs (Decidable (_ = _))

/-- As long as no term has two leaders, there are histories that explain every log. -/
def Explained (cfg : Config Id) (c : Cluster Id) : Prop :=
  OneLeader c → ∃ made, Histories cfg c made

theorem Reachable.explained (h : Reachable cfg fittingStep c) : Explained cfg c := by
  have hinit : Explained cfg (Cluster.init cfg) := fun _ => ⟨_, Histories.init cfg⟩
  refine h.invariant hinit ?_
  intro c i inp e hc hfit hi hm hstep hone
  obtain ⟨made, hmade⟩ := hc hone.of_update
  exact hmade.step hone hi hm hfit hstep

/-- Log matching with compaction, in every run in which no term has two leaders and logs are
    joined only where their terms fit. -/
theorem log_matching (h : Reachable cfg fittingStep c) (hone : OneLeader c) :
    (∀ i ∈ cfg.members, ∀ j ∈ cfg.members, (c.proc i).node.LogMatching (c.proc j).node) ∧
      ∀ i ∈ cfg.members, (c.proc i).node.TermsNondecreasing := by
  obtain ⟨made, hmade⟩ := h.explained hone
  refine ⟨?_, ?_⟩
  · intro i hi j hj
    obtain ⟨l, hl⟩ := hmade.nodes i hi
    obtain ⟨l', hl'⟩ := hmade.nodes j hj
    by_cases hs : cfg.Several
    · exact hl.holds.logMatching hl'.holds (hl.written.traced hs) (hl'.written.traced hs)
    · -- a single node is compared with itself
      have hij : i = j := by
        by_contra hne
        refine hs ⟨i, hi, fun hnil => hne ?_⟩
        rw [Config.members_single hi hnil] at hj
        exact (List.mem_singleton.mp hj).symm
      subst hij
      intro k en en' he he' _
      rw [he] at he'
      rw [Option.some.inj he']
      exact ⟨rfl, fun _ _ t t' ht ht' => Option.some.inj (ht.symm.trans ht')⟩
  · intro i hi
    obtain ⟨l, hl⟩ := hmade.nodes i hi
    exact hl.holds.termsNondecreasing hl.written.ordered

/-! ## A run that joins logs where they fit, and one that does not -/

/-- Node 0 compacts its log after the first write and proposes another one. -/
def compactedWrite : List (Fin 3 × Input (Fin 3)) :=
  [(0, .applyDone), (0, .compactIndex), (0, .compactTerm), (0, .compactLog),
   (0, .propose (putCommand 8)), (0, .replicate 1),
   (1, .appendEntries ⟨1, 0, 1, 1, [⟨1, putCommand 8⟩], 1⟩)]

theorem log_matching_compacted_write :
    ∃ c, Reachable Config.three fittingStep c ∧ OneLeader c ∧
      (c.proc 0).node.lastIncludedIndex = 1 ∧ (c.proc 0).node.log.length = 1 ∧
      (c.proc 1).node.log.length = 2 ∧ (c.proc 0).node.LogMatching (c.proc 1).node ∧
      (c.proc 1).node.TermsNondecreasing := by
  have hrun : ((init Config.three).run Config.three fittingStep
      (firstElection ++ firstWrite ++ compactedWrite)).map
        (fun c => (c.events, (c.proc 0).node.lastIncludedIndex, (c.proc 0).node.log.length,
          (c.proc 1).node.log.length)) =
      some ([.becameLeader 0 1, .applied 0 1 (putCommand 7)], 1, 1, 2) := by
    decide +kernel
  obtain ⟨c, hc, hshow⟩ := Option.map_eq_some_iff.mp hrun
  simp only [Prod.mk.injEq] at hshow
  obtain ⟨hev, h1, h2, h3⟩ := hshow
  have hone : OneLeader c := by
    intro T x y hx hy
    simp only [hev, List.mem_cons, Event.becameLeader.injEq, reduceCtorEq, List.not_mem_nil,
      or_false] at hx hy
    rw [hx.1, hy.1]
  have hreach := Reachable.init.run hc
  obtain ⟨hmatch, hterms⟩ := log_matching hreach hone
  exact ⟨c, hreach, hone, h1, h2, h3, hmatch 0 (by decide) 1 (by decide), hterms 1 (by decide)⟩

/-- Node 2 is elected in term 1 with the vote of node 1 and proposes two writes. -/
def isolatedWrites : List (Fin 3 × Input (Fin 3)) :=
  let req := ⟨1, 2, 0, 0⟩
  [(2, .startElection), (2, .persistElection true),
   (1, .requestVote req), (1, .persistVote req ⟨1, true⟩ true),
   (2, .voteResponse 1 req ⟨1, true⟩), (2, .endElection),
   (2, .propose (putCommand 7)), (2, .propose (putCommand 8))]

/-- Node 0 fails to win term 1 and is elected in term 2 with the vote of node 1. -/
def overtakingElection : List (Fin 3 × Input (Fin 3)) :=
  let req := ⟨2, 0, 0, 0⟩
  [(0, .startElection), (0, .persistElection true), (0, .voteError 1), (0, .voteError 2),
   (0, .endElection), (0, .startElection), (0, .persistElection true),
   (1, .requestVote req), (1, .persistVote req ⟨2, true⟩ true),
   (0, .voteResponse 1 req ⟨2, true⟩), (0, .endElection)]

/-- Node 0 commits a write with node 1, applies and compacts it, and sends node 2 a snapshot. -/
def snapshotTransfer : List (Fin 3 × Input (Fin 3)) :=
  let empty := ⟨2, 0, 0, 0, [], 0⟩
  let full := ⟨2, 0, 0, 0, [⟨2, putCommand 9⟩], 0⟩
  [(0, .replicate 1), (0, .appendError 1 empty), (0, .propose (putCommand 9)), (0, .replicate 1),
   (1, .appendEntries full), (1, .persistAppend full ⟨2, true⟩ true),
   (0, .appendResponse 1 full ⟨2, true⟩), (0, .applyPick), (0, .applyCheck), (0, .applyRun),
   (0, .applyDone), (0, .compactIndex), (0, .compactTerm), (0, .compactLog),
   (0, .replicate 2), (0, .snapshotBegin 2), (0, .snapshotIndex 2), (0, .snapshotTerm 2 1 []),
   (0, .snapshotSend 2 1 2 []), (2, .installSnapshot ⟨2, 0, 1, 2, []⟩)]

/-- The snapshot ends at index 1 in term 2; node 2 keeps its own entry of term 1 at index 2
    behind it. No term has two leaders, every `Save` succeeds, no node restarts, and the run
    stays within the protocol. -/
theorem snapshot_before_conflict :
    ∃ c, Reachable Config.three
        (fun c i inp => c.protocolStep i inp ∧ inp.saved = true ∧ inp ≠ .restart) c ∧
      OneLeader c ∧ (c.proc 2).node.knownTerm 1 = some 2 ∧ (c.proc 2).node.knownTerm 2 = some 1 ∧
      ¬ (c.proc 2).node.TermsNondecreasing := by
  have hrun : ((init Config.three).run Config.three
      (fun c i inp => c.protocolStep i inp ∧ inp.saved = true ∧ inp ≠ .restart)
      (isolatedWrites ++ overtakingElection ++ snapshotTransfer)).map
        (fun c => (c.events, (c.proc 2).node.knownTerm 1, (c.proc 2).node.knownTerm 2,
          decide ((c.proc 2).node.TermsNondecreasing))) =
      some ([.becameLeader 2 1, .becameLeader 0 2, .applied 0 1 (putCommand 9)], some 2, some 1,
        false) := by
    decide +kernel
  obtain ⟨c, hc, hshow⟩ := Option.map_eq_some_iff.mp hrun
  simp only [Prod.mk.injEq, decide_eq_false_iff_not] at hshow
  obtain ⟨hev, h1, h2, h3⟩ := hshow
  refine ⟨c, Reachable.init.run hc, ?_, h1, h2, h3⟩
  intro T x y hx hy
  simp only [hev, List.mem_cons, Event.becameLeader.injEq, reduceCtorEq, List.not_mem_nil,
    or_false] at hx hy
  rcases hx with hx | hx <;> rcases hy with hy | hy
  · rw [hx.1, hy.1]
  · omega
  · omega
  · rw [hx.1, hy.1]

end Cluster

end KvStore.Raft
