import KvStore.Raft.FullLog
import KvStore.Raft.ReplicateToPeer

/-!
# Catching up a follower

A number of calls of `replicateToPeer` brings a follower level with the leader, or none does.

* `Link.catch_up_iff`: the calls succeed exactly if the follower is level already, or it has not
  compacted past the end of the leader's log and one of these holds: the leader keeps its whole
  log, its snapshot reaches the follower's base, or the walk back hits an index that the follower
  can still check and up to which both histories agree.
* `Link.never_catches_up`: a leader whose walk jumps over the only index that the follower can
  check, and whose snapshot the follower acknowledges and ignores.
-/

namespace KvStore.Raft

open KvStore.Storage (Bytes)

variable {Id : Type}

/-! ## Logs that the rounds meet -/

/-- The follower stands for `F`, has not compacted past the end of `R`, agrees with it up to its
    base, and satisfies log matching with it. -/
structure Behind (R F : List Entry) (f : Node Id) : Prop where
  holds : f.Holds F
  base_applied : f.lastIncludedIndex ≤ f.lastApplied
  base_le : f.lastIncludedIndex ≤ R.length
  base_agrees : F.take f.lastIncludedIndex = R.take f.lastIncludedIndex
  matching : ∀ (j : ℕ) (e e' : Entry), F[j]? = some e → R[j]? = some e' → e.term = e'.term →
    F.take (j + 1) = R.take (j + 1)
  nonneg : ∀ e ∈ F, 0 ≤ e.term

namespace Behind

variable {R F : List Entry} {f f' : Node Id}

/-- `Behind` looks at the record only. -/
theorem congr (h : Behind R F f) (hrec : f'.record = f.record) : Behind R F f' := by
  simp only [Node.record, Prod.mk.injEq] at hrec
  obtain ⟨-, hlog, hbase, hterm, happ⟩ := hrec
  exact ⟨h.holds.congr hlog hbase hterm, by rw [hbase, happ]; exact h.base_applied,
    hbase ▸ h.base_le, hbase ▸ h.base_agrees, h.matching, h.nonneg⟩

theorem entry_eq (h : Behind R F f) {j : ℕ} {e e' : Entry} (he : F[j]? = some e)
    (he' : R[j]? = some e') (hterm : e.term = e'.term) : e = e' := by
  have htake := congrArg (fun l => l[j]?) (h.matching j e e' he he' hterm)
  rw [List.getElem?_take_of_lt (Nat.lt_succ_self j), List.getElem?_take_of_lt (Nat.lt_succ_self j),
    he, he'] at htake
  exact Option.some.inj htake

/-- A request that passes the check meets the log where it starts. -/
theorem prev_agrees (h : Behind R F f) {req : AppendEntriesRequest Id} {m prev : ℕ}
    (hcar : Node.Carries req R m prev)
    (hcheck : f.checkPrevLog req.prevLogIndex req.prevLogTerm = true) (hle : prev ≤ m) :
    F.take prev = R.take prev := by
  refine h.holds.prev_agrees hcar hcheck hle (Nat.le_succ _) (fun hprev => ?_)
    (fun j e e' _ => h.matching j e e')
  have := congrArg (List.take prev) h.base_agrees
  rwa [List.take_take, List.take_take, min_eq_left hprev] at this

variable [DecidableEq Id]

/-- A request of the leader that passes the check leaves the follower with the leader's log. -/
theorem accepted (h : Behind R F f) {n : Node Id} (hn : n.Holds R) {peer : Id}
    (hfirst : n.firstIndex ≤ n.nextFor peer)
    (hcheck : f.checkPrevLog (n.appendRequest peer).prevLogIndex (n.appendRequest peer).prevLogTerm
      = true) : (f.mergeEntries (n.appendRequest peer)).1.Holds R := by
  have hcar := Node.appendRequest_carries hn List.prefix_rfl hfirst
  have hmerge := Node.mergeEntries_holds h.holds hcar h.base_le h.base_agrees
    (fun j e e' => h.entry_eq) (h.prev_agrees hcar hcheck)
    (fun hlt => h.holds.prev_below hcar hcheck hlt h.nonneg)
  rwa [List.take_of_length_le (le_max_left _ _)] at hmerge

omit [DecidableEq Id] in
/-- A follower that stands for the leader's log. -/
theorem self (hf : f.Holds R) (hba : f.lastIncludedIndex ≤ f.lastApplied)
    (hR : ∀ e ∈ R, 0 ≤ e.term) : Behind R R f :=
  ⟨hf, hba, hf.base_le, rfl, fun _ _ _ _ _ _ => rfl, hR⟩

omit [DecidableEq Id] in
/-- A snapshot of the leader's log up to `a` replaces what the follower has up to there. -/
theorem installed (h : Behind R F f) {a : ℕ} (hbase : f.lastIncludedIndex ≤ a) (ha : a ≤ R.length)
    {req : InstallSnapshotRequest Id} (hidx : req.lastIncludedIndex = a)
    (hlabel : req.lastIncludedTerm = lastTerm (R.take a)) (hR : ∀ e ∈ R, 0 ≤ e.term) :
    Behind R (R.take a ++ F.drop a) (f.adoptSnapshot req) := by
  have hlen : (R.take a).length = a := by rw [List.length_take, min_eq_left ha]
  have hnat : (f.adoptSnapshot req).lastIncludedIndex = a := by
    change req.lastIncludedIndex.toNat = a
    omega
  have hholds := Node.adoptSnapshot_holds (C := R.take a) h.holds (by rw [hidx, hlen]) hlabel
    (by rw [hlen]; exact hbase)
  rw [hlen] at hholds
  refine ⟨hholds, ?_, hnat ▸ ha, ?_, ?_, ?_⟩
  · change req.lastIncludedIndex.toNat ≤ if f.lastApplied < req.lastIncludedIndex.toNat then
      req.lastIncludedIndex.toNat else f.lastApplied
    split_ifs <;> omega
  · rw [hnat, List.take_append_of_le_length hlen.ge, List.take_take, min_self]
  · intro j e e' he he' hterm
    by_cases hj : j < a
    · rw [List.take_append_of_le_length (by omega), List.take_take, min_eq_left (by omega)]
    · -- above the snapshot the follower keeps its own entries
      rw [List.getElem?_append_right (by omega), hlen, List.getElem?_drop,
        show a + (j - a) = j by omega] at he
      have htake := h.matching j e e' he he' hterm
      rw [List.take_append, hlen, List.take_take, min_eq_right (by omega),
        ← List.drop_take, htake]
      have hsplit := List.take_append_drop a (R.take (j + 1))
      rwa [List.take_take, min_eq_left (by omega)] at hsplit
  · intro e he
    rcases List.mem_append.mp he with he | he
    · exact hR e (List.mem_of_mem_take he)
    · exact h.nonneg e (List.mem_of_mem_drop he)

end Behind

/-! ## Which probes pass -/

/-- An index that the leader `n` keeps the term of, that the follower `f` can still check, and up
    to which their histories agree. -/
structure Recognised (n f : Node Id) (R F : List Entry) (p : ℕ) : Prop where
  leader_base : n.lastIncludedIndex ≤ p
  leader_last : p ≤ R.length
  follower_base : f.lastIncludedIndex ≤ p
  follower_last : p ≤ F.length
  agrees : F.take p = R.take p

theorem lastTerm_nonneg {l : List Entry} (h : ∀ e ∈ l, 0 ≤ e.term) : 0 ≤ lastTerm l := by
  unfold lastTerm
  cases hl : l.getLast? with
  | none => exact le_rfl
  | some e => exact h e (List.mem_of_getLast? hl)

variable [DecidableEq Id]

theorem Node.nextFor_eq (n : Node Id) (peer : Id) : n.nextFor peer = (n.cursor peer).prev + 1 := by
  unfold nextFor cursor Cursor.prev
  dsimp only
  omega

theorem Node.prevLogIndex_eq (n : Node Id) (peer : Id) :
    (n.appendRequest peer).prevLogIndex = ((n.cursor peer).prev : ℤ) := by
  change ((n.nextFor peer - 1 : ℕ) : ℤ) = _
  rw [n.nextFor_eq, Nat.add_sub_cancel]

theorem Node.prevLogTerm_eq (n : Node Id) (peer : Id) :
    (n.appendRequest peer).prevLogTerm = n.logTermAt ((n.cursor peer).prev : ℤ) := by
  change n.logTermAt ((n.nextFor peer - 1 : ℕ) : ℤ) = _
  rw [n.nextFor_eq, Nat.add_sub_cancel]

omit [DecidableEq Id] in
/-- The beginning of the log passes every check. -/
theorem Node.checkPrevLog_zero (f : Node Id) (term : ℤ) : f.checkPrevLog 0 term = true := by
  unfold checkPrevLog
  rw [if_neg (by omega), if_neg (by simp)]

omit [DecidableEq Id] in
theorem Recognised.congr {n n' f f' : Node Id} {R F : List Entry} {p : ℕ}
    (h : Recognised n f R F p) (hn : n'.record = n.record) (hf : f'.record = f.record) :
    Recognised n' f' R F p := by
  have hbn : n'.lastIncludedIndex = n.lastIncludedIndex := congrArg (fun r => r.2.2.1) hn
  have hbf : f'.lastIncludedIndex = f.lastIncludedIndex := congrArg (fun r => r.2.2.1) hf
  exact ⟨hbn ▸ h.leader_base, h.leader_last, hbf ▸ h.follower_base, h.follower_last, h.agrees⟩

omit [DecidableEq Id] in
theorem Recognised.checked {n f : Node Id} {R F : List Entry} {p : ℕ} (h : Recognised n f R F p)
    (hn : n.Holds R) (hf : f.Holds F) : f.checkPrevLog p (n.logTermAt p) = true := by
  have hterm : f.logTermAt p = n.logTermAt p := by
    rw [hf.logTermAt_eq h.follower_base h.follower_last, h.agrees,
      hn.logTermAt_eq h.leader_base h.leader_last]
  have hlast := h.follower_last
  unfold Node.checkPrevLog
  rw [hf.lastLogIndex_eq, if_neg (by omega), if_neg (fun hc => hc.2 hterm)]

/-- Whatever else passes the check is recognised. -/
theorem Behind.recognised {R F : List Entry} {f n : Node Id} (h : Behind R F f) (hn : n.Holds R)
    (hR : ∀ e ∈ R, 0 ≤ e.term) {peer : Id} (hfirst : n.firstIndex ≤ n.nextFor peer)
    (hpos : 0 < (n.cursor peer).prev)
    (hcheck : f.checkPrevLog (n.appendRequest peer).prevLogIndex (n.appendRequest peer).prevLogTerm
      = true) : Recognised n f R F (n.cursor peer).prev := by
  have hcar := Node.appendRequest_carries hn List.prefix_rfl hfirst
  rw [n.nextFor_eq, Nat.add_sub_cancel] at hcar
  rw [n.nextFor_eq] at hfirst
  unfold Node.firstIndex at hfirst
  generalize hp : (n.cursor peer).prev = p at hcar hpos hfirst
  have hR_last : p ≤ R.length := by
    by_contra hlt
    have := h.holds.prev_below hcar hcheck (by omega) h.nonneg
    have := h.base_le
    omega
  have hagrees := h.prev_agrees hcar hcheck hR_last
  rw [n.prevLogIndex_eq, n.prevLogTerm_eq, hp] at hcheck
  unfold Node.checkPrevLog at hcheck
  rw [h.holds.lastLogIndex_eq] at hcheck
  split_ifs at hcheck with hlast hterm
  refine ⟨by omega, hR_last, ?_, by omega, hagrees⟩
  -- below its base the follower answers -1, which no entry of the leader has as its term
  by_contra hbelow
  have hunknown := h.holds.logTermAt_unknown (k := p) (by omega) (.inl (by omega))
  have hknown := hn.logTermAt_eq (k := p) (by omega) hR_last
  have hnonneg := lastTerm_nonneg fun e he => hR e (List.mem_of_mem_take (i := p) he)
  exact hterm ⟨by omega, by rw [hunknown, hknown]; omega⟩

namespace Link

/-! ## Rounds against the whole logs -/

/-- A round is possible: the leader leads with the record of `n₀`, the follower is in its term. -/
structure Running (peer : Id) (n₀ : Node Id) (l : Link Id) : Prop where
  leads : l.leader.LeadsAs peer n₀
  term_eq : l.follower.term = n₀.term

/-- The node whose log the rounds copy. -/
structure Source (R : List Entry) (n₀ : Node Id) : Prop where
  holds : n₀.Holds R
  base_applied : n₀.lastIncludedIndex ≤ n₀.lastApplied
  applied_le : n₀.lastApplied ≤ R.length
  nonneg : ∀ e ∈ R, 0 ≤ e.term

section Rounds

variable {R F : List Entry} {n₀ : Node Id} {peer : Id} {l : Link Id} (data : Bytes)

/-- A round of a leader with log `R` and a follower with log `F`. -/
inductive Advance (R F : List Entry) (n₀ : Node Id) (peer : Id) (l l' : Link Id) : Prop
  | rewound (hprev : n₀.lastIncludedIndex ≤ (l.leader.cursor peer).prev)
      (hpos : 0 < (l.leader.cursor peer).prev)
      (hmiss : ¬ Recognised n₀ l.follower R F (l.leader.cursor peer).prev)
      (hcursor : l'.leader.cursor peer = (l.leader.cursor peer).rewind)
      (hrecord : l'.follower.record = l.follower.record)
  | level (hprev : n₀.lastIncludedIndex ≤ (l.leader.cursor peer).prev)
      (hhit : (l.leader.cursor peer).prev = 0 ∨
        Recognised n₀ l.follower R F (l.leader.cursor peer).prev)
      (hbehind : Behind R R l'.follower)
  | ignored (hprev : (l.leader.cursor peer).prev < n₀.lastIncludedIndex)
      (hle : n₀.lastApplied ≤ l.follower.lastApplied)
      (hcursor : l'.leader.cursor peer = ⟨n₀.lastApplied + 1, 0⟩)
      (hrecord : l'.follower.record = l.follower.record)
  | installed (hprev : (l.leader.cursor peer).prev < n₀.lastIncludedIndex)
      (hlt : l.follower.lastApplied < n₀.lastApplied)
      (hcursor : l'.leader.cursor peer = ⟨n₀.lastApplied + 1, 0⟩)
      (hbase : l'.follower.lastIncludedIndex = n₀.lastApplied)
      (hbehind : Behind R (R.take n₀.lastApplied ++ F.drop n₀.lastApplied) l'.follower)

namespace Running

theorem record_eq (h : Running peer n₀ l) :
    l.leader.term = n₀.term ∧ l.leader.log = n₀.log ∧
      l.leader.lastIncludedIndex = n₀.lastIncludedIndex ∧
      l.leader.lastIncludedTerm = n₀.lastIncludedTerm ∧ l.leader.lastApplied = n₀.lastApplied := by
  have := h.leads.record
  simpa only [Node.record, Prod.mk.injEq] using this

theorem holds (h : Running peer n₀ l) (hs : Source R n₀) : l.leader.Holds R := by
  obtain ⟨-, hlog, hbase, hterm, -⟩ := h.record_eq
  exact hs.holds.congr hlog hbase hterm

/-- What one round does, said about whole logs. -/
theorem round (h : Running peer n₀ l) (hs : Source R n₀) (hb : Behind R F l.follower) :
    Running peer n₀ (l.round data peer) ∧ Advance R F n₀ peer l (l.round data peer) := by
  obtain ⟨hlterm, -, hlbase, -, hlapp⟩ := h.record_eq
  have hterm : l.follower.term = l.leader.term := h.term_eq.trans hlterm.symm
  have hfollow := Node.record_follow hterm.symm l.leader.id
  have hb' := hb.congr hfollow
  have hfterm : (l.follower.follow l.leader.term l.leader.id).term = n₀.term :=
    (congrArg Prod.fst hfollow).trans h.term_eq
  have happ : l.follower.lastApplied =
    (l.follower.follow l.leader.term l.leader.id).lastApplied :=
    (congrArg (fun r => r.2.2.2.2) hfollow).symm
  have hlR := h.holds hs
  obtain ⟨hleads, hround⟩ := round_of_exchange data h.leads hterm
  cases hround with
  | rejected hfirst hcheck hcursor hrecord =>
    refine ⟨⟨hleads, (congrArg Prod.fst hrecord).trans h.term_eq⟩, ?_⟩
    rw [l.leader.prevLogIndex_eq, l.leader.prevLogTerm_eq] at hcheck
    rw [l.leader.nextFor_eq, Node.firstIndex, hlbase] at hfirst
    refine .rewound (by omega) ?_ ?_ hcursor hrecord
    · by_contra h0
      rw [Nat.eq_zero_of_not_pos h0, Int.ofNat_zero, Node.checkPrevLog_zero] at hcheck
      exact Bool.noConfusion hcheck
    · intro hrec
      have := (hrec.congr h.leads.record hfollow).checked hlR hb'.holds
      rw [hcheck] at this
      exact Bool.noConfusion this
  | accepted hfirst hcheck hrecord =>
    refine ⟨⟨hleads, (congrArg Prod.fst hrecord).trans hfterm⟩, ?_⟩
    have hself := Behind.self (hb'.accepted hlR hfirst hcheck) hb'.base_applied hs.nonneg
    have hprev := hfirst
    rw [l.leader.nextFor_eq, Node.firstIndex, hlbase] at hprev
    refine .level (by omega) ?_ (hself.congr hrecord)
    rcases Nat.eq_zero_or_pos (l.leader.cursor peer).prev with h0 | hpos
    · exact .inl h0
    · exact .inr ((hb'.recognised hlR hs.nonneg hfirst hpos hcheck).congr h.leads.record.symm
        hfollow.symm)
  | ignored hfirst hle hcursor hrecord =>
    refine ⟨⟨hleads, (congrArg Prod.fst hrecord).trans h.term_eq⟩, ?_⟩
    rw [l.leader.nextFor_eq, Node.firstIndex, hlbase] at hfirst
    have hba := hs.base_applied
    have hnext : (l.leader.cursor peer).next ≤ n₀.lastApplied + 1 := by
      unfold Cursor.prev at hfirst
      omega
    rw [hlapp, max_eq_right hnext] at hcursor
    exact .ignored (by omega) (by omega) hcursor hrecord
  | installed hfirst hlt hcursor hrecord =>
    refine ⟨⟨hleads, (congrArg Prod.fst hrecord).trans hfterm⟩, ?_⟩
    rw [l.leader.nextFor_eq, Node.firstIndex, hlbase] at hfirst
    have hba := hs.base_applied
    have hnext : (l.leader.cursor peer).next ≤ n₀.lastApplied + 1 := by
      unfold Cursor.prev at hfirst
      omega
    rw [hlapp, max_eq_right hnext] at hcursor
    rw [hlapp] at hrecord hlt
    have hlabel := hlR.logTermAt_eq (hlbase ▸ hba) hs.applied_le
    have hinst : Behind R (R.take n₀.lastApplied ++ F.drop n₀.lastApplied)
        ((l.follower.follow l.leader.term l.leader.id).adoptSnapshot
          (l.leader.snapshotRequest n₀.lastApplied (l.leader.logTermAt n₀.lastApplied) data)) :=
      hb'.installed (by have := hb'.base_applied; omega) hs.applied_le rfl hlabel hs.nonneg
    refine .installed (by omega) hlt hcursor ?_ (hinst.congr hrecord)
    exact congrArg (fun r => r.2.2.1) hrecord

end Running

/-! ## Reaching the leader's log -/

/-- The follower stands for the leader's log. -/
structure Settled (R : List Entry) (peer : Id) (n₀ : Node Id) (l : Link Id) : Prop where
  running : Running peer n₀ l
  behind : Behind R R l.follower

theorem Settled.round (hs : Source R n₀) (h : Settled R peer n₀ l) :
    Settled R peer n₀ (l.round data peer) := by
  obtain ⟨hrun, hadv⟩ := h.running.round data hs h.behind
  refine ⟨hrun, ?_⟩
  cases hadv with
  | rewound _ _ _ _ hrecord => exact h.behind.congr hrecord
  | level _ _ hbehind => exact hbehind
  | ignored _ _ _ hrecord => exact h.behind.congr hrecord
  | installed _ _ _ _ hbehind =>
    rw [List.take_append_drop] at hbehind
    exact hbehind

theorem Settled.rounds (hs : Source R n₀) (h : Settled R peer n₀ l) (m : ℕ) :
    Settled R peer n₀ ((Link.round data peer)^[m] l) := by
  induction m generalizing l with
  | zero => exact h
  | succ m ih => exact ih (h.round data hs)

/-- The walk back meets an index that the follower recognises, or the beginning of the log. -/
theorem Running.settles_of_probe (hs : Source R n₀) (h : Running peer n₀ l)
    (hb : Behind R F l.follower) {k : ℕ}
    (hbase : n₀.lastIncludedIndex ≤ (Cursor.rewind^[k] (l.leader.cursor peer)).prev)
    (hhit : (Cursor.rewind^[k] (l.leader.cursor peer)).prev = 0 ∨
      Recognised n₀ l.follower R F (Cursor.rewind^[k] (l.leader.cursor peer)).prev) :
    ∃ j, Settled R peer n₀ ((Link.round data peer)^[j] l) := by
  induction k generalizing l with
  | zero =>
    obtain ⟨hrun, hadv⟩ := h.round data hs hb
    rw [Function.iterate_zero, id] at hbase hhit
    cases hadv with
    | rewound _ hpos hmiss => exact absurd hhit (by rintro (h0 | hr); exacts [by omega, hmiss hr])
    | level _ _ hbehind => exact ⟨1, hrun, hbehind⟩
    | ignored hprev => omega
    | installed hprev => omega
  | succ k ih =>
    obtain ⟨hrun, hadv⟩ := h.round data hs hb
    cases hadv with
    | rewound _ _ _ hcursor hrecord =>
      rw [Function.iterate_succ_apply, ← hcursor] at hbase hhit
      obtain ⟨j, hj⟩ := ih hrun (hb.congr hrecord) hbase
        (hhit.imp_right fun hr => hr.congr rfl hrecord)
      exact ⟨j + 1, hj⟩
    | level _ _ hbehind => exact ⟨1, hrun, hbehind⟩
    | ignored hprev =>
      have := (l.leader.cursor peer).prev_iterate_antitone (Nat.zero_le (k + 1))
      simp only [Function.iterate_zero, id] at this
      omega
    | installed hprev =>
      have := (l.leader.cursor peer).prev_iterate_antitone (Nat.zero_le (k + 1))
      simp only [Function.iterate_zero, id] at this
      omega

/-- Otherwise the walk back leaves the leader's log. -/
theorem Running.settles_or_needs_snapshot (hs : Source R n₀) (h : Running peer n₀ l)
    (hb : Behind R F l.follower) :
    ∃ j, Settled R peer n₀ ((Link.round data peer)^[j] l) ∨
      (Running peer n₀ ((Link.round data peer)^[j] l) ∧
        ((Link.round data peer)^[j] l).follower.record = l.follower.record ∧
        (((Link.round data peer)^[j] l).leader.cursor peer).prev < n₀.lastIncludedIndex) := by
  induction hn : (l.leader.cursor peer).next using Nat.strongRecOn generalizing l with
  | ind next ih =>
    by_cases hlt : (l.leader.cursor peer).prev < n₀.lastIncludedIndex
    · exact ⟨0, .inr ⟨h, rfl, hlt⟩⟩
    · obtain ⟨hrun, hadv⟩ := h.round data hs hb
      cases hadv with
      | rewound _ hprev _ hcursor hrecord =>
        have hless : ((l.round data peer).leader.cursor peer).next < next := by
          rw [hcursor, ← hn]
          unfold Cursor.prev at hprev
          exact Cursor.rewind_next_lt (by omega)
        obtain ⟨j, hj⟩ := ih _ hless hrun (hb.congr hrecord) rfl
        refine ⟨j + 1, ?_⟩
        rw [Function.iterate_succ_apply, ← hrecord]
        exact hj
      | level _ _ hbehind => exact ⟨1, .inl ⟨hrun, hbehind⟩⟩
      | ignored hprev => omega
      | installed hprev => omega

/-- A snapshot that reaches the follower's base: the next probe is at its index. -/
theorem Running.settles_of_snapshot (hs : Source R n₀) (h : Running peer n₀ l)
    (hb : Behind R F l.follower) (hprev : (l.leader.cursor peer).prev < n₀.lastIncludedIndex)
    (hreach : l.follower.lastIncludedIndex ≤ n₀.lastApplied)
    (hagree : n₀.lastApplied ≤ l.follower.lastApplied →
      n₀.lastApplied ≤ F.length ∧ F.take n₀.lastApplied = R.take n₀.lastApplied) :
    ∃ j, Settled R peer n₀ ((Link.round data peer)^[j] l) := by
  have hba := hs.base_applied
  have hle := hs.applied_le
  have hlen : (R.take n₀.lastApplied).length = n₀.lastApplied := by
    rw [List.length_take, min_eq_left hle]
  obtain ⟨hrun, hadv⟩ := h.round data hs hb
  -- whatever the follower stands for now, it recognises `lastApplied`
  have hnext : ∀ F', Behind R F' (l.round data peer).follower →
      (l.round data peer).leader.cursor peer = ⟨n₀.lastApplied + 1, 0⟩ →
      Recognised n₀ (l.round data peer).follower R F' n₀.lastApplied →
      ∃ j, Settled R peer n₀ ((Link.round data peer)^[j] l) := by
    intro F' hb' hcursor hrec
    obtain ⟨j, hj⟩ := hrun.settles_of_probe data hs hb' (k := 0)
      (by rw [hcursor]; exact hba) (by rw [hcursor]; exact .inr hrec)
    exact ⟨j + 1, hj⟩
  cases hadv with
  | rewound hge => omega
  | level hge => omega
  | ignored _ happ hcursor hrecord =>
    obtain ⟨hF, htake⟩ := hagree happ
    have hrec : Recognised n₀ l.follower R F n₀.lastApplied := ⟨hba, hle, hreach, hF, htake⟩
    exact hnext F (hb.congr hrecord) hcursor (hrec.congr rfl hrecord)
  | installed _ _ hcursor hbase hbehind =>
    refine hnext _ hbehind hcursor ⟨hba, hle, hbase.le, ?_, ?_⟩
    · rw [List.length_append, hlen]
      omega
    · rw [List.take_append_of_le_length hlen.ge, List.take_take, min_self]

/-! ## Staying where it is -/

/-- The follower has not moved since `f₀`, and the leader either still walks back from `c₀` or
    has come to the index of its snapshot. -/
structure Stuck (n₀ f₀ : Node Id) (c₀ : Cursor) (peer : Id) (l : Link Id) : Prop where
  running : Running peer n₀ l
  record : l.follower.record = f₀.record
  cursor : (∃ k, l.leader.cursor peer = Cursor.rewind^[k] c₀) ∨
    (l.leader.cursor peer).next ≤ n₀.lastApplied + 1

theorem Stuck.round {f₀ : Node Id} {c₀ : Cursor} (hs : Source R n₀) (hb : Behind R F f₀)
    (hpos : 0 < n₀.lastIncludedIndex) (hreach : n₀.lastApplied < f₀.lastIncludedIndex)
    (hmiss : ∀ k, ¬ Recognised n₀ f₀ R F (Cursor.rewind^[k] c₀).prev) (h : Stuck n₀ f₀ c₀ peer l) :
    Stuck n₀ f₀ c₀ peer (l.round data peer) := by
  obtain ⟨hrun, hadv⟩ := h.running.round data hs (hb.congr h.record)
  cases hadv with
  | rewound _ _ _ hcursor hrecord =>
    refine ⟨hrun, hrecord.trans h.record, ?_⟩
    rw [hcursor]
    rcases h.cursor with ⟨k, hk⟩ | hle
    · exact .inl ⟨k + 1, by rw [hk, Function.iterate_succ_apply']⟩
    · have := (l.leader.cursor peer).rewind_next_le
      exact .inr (by omega)
  | level hprev hhit =>
    exfalso
    have hrec := (hhit.resolve_left (by omega)).congr rfl h.record.symm
    rcases h.cursor with ⟨k, hk⟩ | hle
    · rw [hk] at hrec
      exact hmiss k hrec
    · have := hrec.follower_base
      unfold Cursor.prev at this
      omega
  | ignored _ _ hcursor hrecord =>
    exact ⟨hrun, hrecord.trans h.record, .inr (by rw [hcursor])⟩
  | installed _ hlt =>
    exfalso
    have happ : l.follower.lastApplied = f₀.lastApplied :=
      congrArg (fun r => r.2.2.2.2) h.record
    have := hb.base_applied
    omega

/-- A follower that has compacted past the end of the leader's log keeps its base. -/
theorem Running.base_ahead (hs : Source R n₀) (h : Running peer n₀ l)
    (hba : l.follower.lastIncludedIndex ≤ l.follower.lastApplied)
    (hahead : R.length < l.follower.lastIncludedIndex) :
    Running peer n₀ (l.round data peer) ∧
      (l.round data peer).follower.lastIncludedIndex ≤ (l.round data peer).follower.lastApplied ∧
      R.length < (l.round data peer).follower.lastIncludedIndex := by
  obtain ⟨hlterm, -, -, -, hlapp⟩ := h.record_eq
  have hterm : l.follower.term = l.leader.term := h.term_eq.trans hlterm.symm
  have hfollow := Node.record_follow hterm.symm l.leader.id
  have hkeep : ∀ f : Node Id, f.term = n₀.term →
      f.lastIncludedIndex = l.follower.lastIncludedIndex →
      f.lastApplied = l.follower.lastApplied →
      (l.round data peer).follower.record = f.record →
      (l.round data peer).follower.term = n₀.term ∧
        (l.round data peer).follower.lastIncludedIndex ≤
          (l.round data peer).follower.lastApplied ∧
        R.length < (l.round data peer).follower.lastIncludedIndex := by
    intro f hft hfb hfa hrecord
    simp only [Node.record, Prod.mk.injEq] at hrecord
    obtain ⟨hrt, -, hrb, -, hra⟩ := hrecord
    exact ⟨hrt.trans hft, by omega, by omega⟩
  obtain ⟨hleads, hround⟩ := round_of_exchange data h.leads hterm
  suffices hf : (l.round data peer).follower.term = n₀.term ∧
      (l.round data peer).follower.lastIncludedIndex ≤ (l.round data peer).follower.lastApplied ∧
      R.length < (l.round data peer).follower.lastIncludedIndex from ⟨⟨hleads, hf.1⟩, hf.2⟩
  simp only [Node.record, Prod.mk.injEq] at hfollow
  obtain ⟨hft, -, hfb, -, hfa⟩ := hfollow
  cases hround with
  | rejected _ _ _ hrecord => exact hkeep _ h.term_eq rfl rfl hrecord
  | accepted _ _ hrecord =>
    exact hkeep (Node.mergeEntries _ _).1 (hft.trans h.term_eq) hfb hfa hrecord
  | ignored _ _ _ hrecord => exact hkeep _ h.term_eq rfl rfl hrecord
  | installed _ hlt =>
    have := hs.applied_le
    omega

end Rounds

/-! ## When the follower catches up -/

/-- A leader with no request to `peer` outstanding, and the peer, in the same term; their logs
    are compacted forms of the histories `R` and `F`, which satisfy log matching and agree as far
    as both go up to the larger of the two applied indices. -/
structure Matched (peer : Id) (R F : List Entry) (l : Link Id) : Prop where
  role : l.leader.role = .leader
  idle : l.leader.replState.inFlight peer = false
  term_eq : l.follower.term = l.leader.term
  leader_holds : l.leader.Holds R
  follower_holds : l.follower.Holds F
  leader_nonneg : ∀ e ∈ R, 0 ≤ e.term
  follower_nonneg : ∀ e ∈ F, 0 ≤ e.term
  matching : ∀ (j : ℕ) (e e' : Entry), F[j]? = some e → R[j]? = some e' → e.term = e'.term →
    F.take (j + 1) = R.take (j + 1)
  agree : ∀ (j : ℕ) (e e' : Entry), j < max l.leader.lastApplied l.follower.lastApplied →
    F[j]? = some e → R[j]? = some e' → e = e'
  leader_base : l.leader.lastIncludedIndex ≤ l.leader.lastApplied
  leader_applied : l.leader.lastApplied ≤ l.leader.lastLogIndex
  follower_base : l.follower.lastIncludedIndex ≤ l.follower.lastApplied
  follower_applied : l.follower.lastApplied ≤ l.follower.lastLogIndex

/-- The follower ends where the leader ends, and has the same entry at every index that both
    retain. -/
def Level (l : Link Id) : Prop :=
  l.follower.lastLogIndex = l.leader.lastLogIndex ∧
    ∀ (k : ℕ) (e e' : Entry), l.leader.entryAt k = some e → l.follower.entryAt k = some e' → e = e'

/-- The follower has not compacted past the end of the leader's log; and the leader keeps its whole
    log, or its snapshot reaches the follower's base, or the walk back from `nextIndex` meets an
    index that the follower recognises. -/
def CanCatchUp (peer : Id) (R F : List Entry) (l : Link Id) : Prop :=
  l.follower.lastIncludedIndex ≤ l.leader.lastLogIndex ∧
    (l.leader.lastIncludedIndex = 0 ∨ l.follower.lastIncludedIndex ≤ l.leader.lastApplied ∨
      ∃ k, Recognised l.leader l.follower R F (Cursor.rewind^[k] (l.leader.cursor peer)).prev)

namespace Matched

variable {peer : Id} {R F : List Entry} {l : Link Id}

theorem source (h : l.Matched peer R F) : Source R l.leader :=
  ⟨h.leader_holds, h.leader_base, h.leader_holds.lastLogIndex_eq ▸ h.leader_applied,
    h.leader_nonneg⟩

theorem running (h : l.Matched peer R F) : Running peer l.leader l :=
  ⟨⟨h.role, h.idle, rfl⟩, h.term_eq⟩

/-- The histories agree on every index up to the larger applied index that both have. -/
theorem take_eq (h : l.Matched peer R F) {k : ℕ}
    (hk : k ≤ max l.leader.lastApplied l.follower.lastApplied) (hF : k ≤ F.length)
    (hR : k ≤ R.length) : F.take k = R.take k := by
  refine List.ext_getElem? fun j => ?_
  rcases Nat.lt_or_ge j k with hj | hj
  · rw [List.getElem?_take_of_lt hj, List.getElem?_take_of_lt hj]
    have hFj := List.getElem?_eq_getElem (show j < F.length by omega)
    have hRj := List.getElem?_eq_getElem (show j < R.length by omega)
    rw [hFj, hRj, h.agree j _ _ (by omega) hFj hRj]
  · rw [List.getElem?_eq_none (by rw [List.length_take]; omega),
      List.getElem?_eq_none (by rw [List.length_take]; omega)]

theorem behind (h : l.Matched peer R F)
    (hbase : l.follower.lastIncludedIndex ≤ l.leader.lastLogIndex) : Behind R F l.follower := by
  have hR := h.leader_holds.lastLogIndex_eq
  have hF := h.follower_holds.lastLogIndex_eq
  have hfb := h.follower_base
  have hfa := h.follower_applied
  exact ⟨h.follower_holds, hfb, by omega, h.take_eq (by omega) (by omega) (by omega), h.matching,
    h.follower_nonneg⟩

/-- The condition suffices: some number of rounds gives the follower the leader's log. -/
theorem settles (h : l.Matched peer R F) (hcan : l.CanCatchUp peer R F) (data : Bytes) :
    ∃ j, Settled R peer l.leader ((Link.round data peer)^[j] l) := by
  obtain ⟨hbase, hcases⟩ := hcan
  have hb := h.behind hbase
  have hR := h.leader_holds.lastLogIndex_eq
  have hF := h.follower_holds.lastLogIndex_eq
  rcases hcases with hzero | hreach | ⟨k, hk⟩
  · -- an uncompacted leader walks back to the beginning, if it has to
    obtain ⟨k, hk⟩ := (l.leader.cursor peer).exists_prev_eq_zero
    exact h.running.settles_of_probe data h.source hb (hzero ▸ Nat.zero_le _) (.inl hk)
  · obtain ⟨j, hj | ⟨hrun, hrecord, hprev⟩⟩ :=
      h.running.settles_or_needs_snapshot data h.source hb
    · exact ⟨j, hj⟩
    · have hfb : ((Link.round data peer)^[j] l).follower.lastIncludedIndex =
          l.follower.lastIncludedIndex := congrArg (fun r => r.2.2.1) hrecord
      have hfa : ((Link.round data peer)^[j] l).follower.lastApplied = l.follower.lastApplied :=
        congrArg (fun r => r.2.2.2.2) hrecord
      have hla := h.leader_applied
      have happ := h.follower_applied
      obtain ⟨j', hj'⟩ := hrun.settles_of_snapshot data h.source (hb.congr hrecord) hprev
        (by rw [hfb]; exact hreach) (fun hle => by
          rw [hfa] at hle
          exact ⟨by omega, h.take_eq (by omega) (by omega) (by omega)⟩)
      exact ⟨j' + j, by rw [Function.iterate_add_apply]; exact hj'⟩
  · exact h.running.settles_of_probe data h.source hb hk.leader_base (.inr hk)

end Matched

/-- Two nodes that stand for one log are level. -/
theorem Settled.level {R : List Entry} {peer : Id} {n₀ : Node Id} {l : Link Id}
    (h : Settled R peer n₀ l) (hs : Source R n₀) : l.Level := by
  have hleader := h.running.holds hs
  have hfollower := h.behind.holds
  refine ⟨by rw [hleader.lastLogIndex_eq, hfollower.lastLogIndex_eq], fun k e e' he he' => ?_⟩
  have hget := (hleader.entryAt_some he).2
  rw [(hfollower.entryAt_some he').2] at hget
  exact (Option.some.inj hget).symm

omit [DecidableEq Id] in
/-- Being level is a matter of the two records. -/
theorem Level.congr {l l' : Link Id} (h : l'.Level) (hleader : l'.leader.record = l.leader.record)
    (hfollower : l'.follower.record = l.follower.record) : l.Level := by
  simp only [Node.record, Prod.mk.injEq] at hleader hfollower
  obtain ⟨-, hll, hlb, -, -⟩ := hleader
  obtain ⟨-, hfl, hfb, -, -⟩ := hfollower
  unfold Level Node.lastLogIndex Node.entryAt Node.logOffset at h ⊢
  rw [hll, hlb, hfl, hfb] at h
  exact h

/-- A follower that has compacted past the end of the leader's log is never level with it. -/
theorem Matched.not_level_of_ahead {peer : Id} {R F : List Entry} {l : Link Id}
    (h : l.Matched peer R F) (hahead : R.length < l.follower.lastIncludedIndex) (data : Bytes)
    (m : ℕ) : ¬ ((Link.round data peer)^[m] l).Level := by
  have hinv : Running peer l.leader ((Link.round data peer)^[m] l) ∧
      ((Link.round data peer)^[m] l).follower.lastIncludedIndex ≤
        ((Link.round data peer)^[m] l).follower.lastApplied ∧
      R.length < ((Link.round data peer)^[m] l).follower.lastIncludedIndex := by
    induction m with
    | zero => exact ⟨h.running, h.follower_base, hahead⟩
    | succ m ih =>
      rw [Function.iterate_succ_apply']
      exact ih.1.base_ahead data h.source ih.2.1 ih.2.2
  intro hlevel
  have hlast := hlevel.1
  rw [(hinv.1.holds h.source).lastLogIndex_eq, Node.lastLogIndex] at hlast
  omega

/-- Without the condition the follower stays where it is. -/
theorem Matched.stuck {peer : Id} {R F : List Entry} {l : Link Id} (h : l.Matched peer R F)
    (hbase : l.follower.lastIncludedIndex ≤ l.leader.lastLogIndex)
    (hpos : 0 < l.leader.lastIncludedIndex)
    (hreach : l.leader.lastApplied < l.follower.lastIncludedIndex)
    (hmiss : ∀ k, ¬ Recognised l.leader l.follower R F
      (Cursor.rewind^[k] (l.leader.cursor peer)).prev) (data : Bytes) (m : ℕ) :
    Stuck l.leader l.follower (l.leader.cursor peer) peer ((Link.round data peer)^[m] l) := by
  induction m with
  | zero => exact ⟨h.running, rfl, .inl ⟨0, rfl⟩⟩
  | succ m ih =>
    rw [Function.iterate_succ_apply']
    exact ih.round data h.source (h.behind hbase) hpos hreach hmiss

/-- If no round ever levels the follower it was not level and does not meet the condition. -/
theorem Matched.level_of_rounds {peer : Id} {R F : List Entry} {l : Link Id}
    (h : l.Matched peer R F) {data : Bytes} {m : ℕ}
    (hlevel : ((Link.round data peer)^[m] l).Level) : l.Level ∨ l.CanCatchUp peer R F := by
  by_cases hbase : l.follower.lastIncludedIndex ≤ l.leader.lastLogIndex
  · by_contra hnot
    push Not at hnot
    obtain ⟨hl, hcan⟩ := hnot
    unfold CanCatchUp at hcan
    push Not at hcan
    obtain ⟨hpos, hreach, hmiss⟩ := hcan hbase
    have hstuck := h.stuck hbase (Nat.pos_of_ne_zero hpos) hreach hmiss data m
    exact hl (hlevel.congr hstuck.running.leads.record hstuck.record)
  · rw [h.leader_holds.lastLogIndex_eq] at hbase
    exact absurd hlevel (h.not_level_of_ahead (by omega) data m)

/-- Some number of successive calls of `replicateToPeer` brings the follower level with the leader
    exactly if it is level already or meets the condition. -/
theorem catch_up_iff {peer : Id} {R F : List Entry} {l : Link Id} (h : l.Matched peer R F)
    (data : Bytes) :
    (∃ k, ((call data peer)^[k] l).Level) ↔ l.Level ∨ l.CanCatchUp peer R F := by
  constructor
  · rintro ⟨k, hk⟩
    obtain ⟨m, -, hm⟩ := calls_eq_rounds data peer k l
    rw [hm] at hk
    exact h.level_of_rounds hk
  · rintro (hlevel | hcan)
    · exact ⟨0, hlevel⟩
    · obtain ⟨j, hj⟩ := h.settles hcan data
      -- `j` calls are at least `j` rounds, and further rounds change nothing
      obtain ⟨m, hle, hm⟩ := calls_eq_rounds data peer j l
      refine ⟨j, ?_⟩
      rw [hm, ← Nat.sub_add_cancel hle, Function.iterate_add_apply]
      exact (hj.rounds data h.source (m - j)).level h.source

/-! ## Two links -/

/-- `k` entries of term 1. -/
def sampleLog (k : ℕ) : List Entry :=
  List.replicate k ⟨1, { op := .put, key := [1], value := [1], expiresAt := 0 }⟩

/-- A leader with four entries and a follower with the first `last` of them; the leader has
    compacted up to `b` and applied up to `a`, the follower up to `b'` and `a'`. -/
def sample (b a b' a' last : ℕ) : Link (Fin 2) where
  leader := { Node.new 0 [1] with
    role := .leader, term := 2, leaderID := some 0
    log := sampleLog (4 - b)
    commitIndex := a, lastApplied := a, lastIncludedIndex := b
    lastIncludedTerm := if b = 0 then 0 else 1 }
  follower := { Node.new 1 [0] with
    term := 2, leaderID := some 0
    log := sampleLog (last - b')
    commitIndex := a', lastApplied := a', lastIncludedIndex := b'
    lastIncludedTerm := if b' = 0 then 0 else 1 }

theorem lastTerm_sampleLog (k : ℕ) : lastTerm (sampleLog k) = if k = 0 then 0 else 1 := by
  cases k with
  | zero => rfl
  | succ k =>
    unfold sampleLog lastTerm
    rw [List.replicate_succ', List.getLast?_concat]
    rfl

theorem take_sampleLog (i k : ℕ) : (sampleLog k).take i = sampleLog (min i k) :=
  List.take_replicate

theorem drop_sampleLog (i k : ℕ) : (sampleLog k).drop i = sampleLog (k - i) :=
  List.drop_replicate

omit [DecidableEq Id] in
/-- A node that keeps the entries after `b`. -/
theorem sampleLog_holds {n : Node Id} {b k : ℕ} (hb : b ≤ k) (hlog : n.log = sampleLog (k - b))
    (hbase : n.lastIncludedIndex = b) (hterm : n.lastIncludedTerm = if b = 0 then 0 else 1) :
    n.Holds (sampleLog k) := by
  subst hbase
  refine ⟨?_, by rw [hlog, drop_sampleLog], ?_⟩
  · rw [sampleLog, List.length_replicate]
    exact hb
  · rw [hterm, take_sampleLog, lastTerm_sampleLog, min_eq_left hb]

theorem sample_matched {b a b' a' last : ℕ} (hb : b ≤ a) (ha : a ≤ 4) (hb' : b' ≤ a')
    (ha' : a' ≤ last) (hlast : last ≤ 4) :
    (sample b a b' a' last).Matched 1 (sampleLog 4) (sampleLog last) where
  role := rfl
  idle := rfl
  term_eq := rfl
  leader_holds := sampleLog_holds (by omega) rfl rfl rfl
  follower_holds := sampleLog_holds (by omega) rfl rfl rfl
  leader_nonneg := by
    intro e he
    rw [List.eq_of_mem_replicate he]
    decide
  follower_nonneg := by
    intro e he
    rw [List.eq_of_mem_replicate he]
    decide
  matching := by
    intro j e e' he _ _
    have hj := (List.getElem?_eq_some_iff.mp he).1
    rw [sampleLog, List.length_replicate] at hj
    rw [take_sampleLog, take_sampleLog, min_eq_left (by omega), min_eq_left (by omega)]
  agree := by
    intro j e e' _ he he'
    rw [List.eq_of_mem_replicate (List.mem_of_getElem? he),
      List.eq_of_mem_replicate (List.mem_of_getElem? he')]
  leader_base := hb
  leader_applied := by
    change a ≤ b + (List.replicate (4 - b) _).length
    rw [List.length_replicate]
    omega
  follower_base := hb'
  follower_applied := by
    change a' ≤ b' + (List.replicate (last - b') _).length
    rw [List.length_replicate]
    omega

/-- An empty follower of a leader that has compacted catches up through the snapshot. -/
theorem catch_up_by_snapshot :
    (sample 2 3 0 0 0).Matched 1 (sampleLog 4) (sampleLog 0) ∧
      ∃ k, ((call [] 1)^[k] (sample 2 3 0 0 0)).Level := by
  have hm : (sample 2 3 0 0 0).Matched 1 (sampleLog 4) (sampleLog 0) :=
    sample_matched (by omega) (by omega) (by omega) (by omega) (by omega)
  exact ⟨hm, (catch_up_iff hm []).mpr (.inr ⟨by decide, .inr (.inl (by decide))⟩)⟩

/-- The walk back probes 4, 3 and 1, the follower can only check 2, and it ignores the snapshot at
    1: no number of calls brings it level. -/
theorem never_catches_up :
    (sample 1 1 2 2 2).Matched 1 (sampleLog 4) (sampleLog 2) ∧
      ∀ (data : Bytes) (k : ℕ), ¬ ((call data 1)^[k] (sample 1 1 2 2 2)).Level := by
  have hm : (sample 1 1 2 2 2).Matched 1 (sampleLog 4) (sampleLog 2) :=
    sample_matched (by omega) (by omega) (by omega) (by omega) (by omega)
  refine ⟨hm, fun data k hk => ?_⟩
  obtain ⟨m, -, hround⟩ := calls_eq_rounds data 1 k (sample 1 1 2 2 2)
  rw [hround] at hk
  rcases hm.level_of_rounds hk with hlevel | ⟨-, hzero | hreach | ⟨j, hj⟩⟩
  · exact absurd hlevel.1 (by decide)
  · exact absurd hzero (by decide)
  · exact absurd hreach (by decide)
  · have hge : 2 ≤ (Cursor.rewind^[j] ((sample 1 1 2 2 2).leader.cursor 1)).prev := hj.follower_base
    have hle : (Cursor.rewind^[j] ((sample 1 1 2 2 2).leader.cursor 1)).prev ≤ 2 := hj.follower_last
    have hwalk := ((sample 1 1 2 2 2).leader.cursor 1).prev_iterate_antitone
    rcases Nat.lt_or_ge j 2 with hj2 | hj2
    · have h1 := hwalk (show j ≤ 1 by omega)
      have : (Cursor.rewind^[1] ((sample 1 1 2 2 2).leader.cursor 1)).prev = 3 := by decide
      dsimp only at h1
      omega
    · have h2 := hwalk hj2
      have : (Cursor.rewind^[2] ((sample 1 1 2 2 2).leader.cursor 1)).prev = 1 := by decide
      dsimp only at h2
      omega

end Link

end KvStore.Raft
