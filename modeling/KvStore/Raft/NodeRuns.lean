import KvStore.Raft.Inversion
import KvStore.Raft.Votes

/-!
# Runs of one node on its raft store

A node that has been wired to a store by `SetRaftStore`, and any sequence of critical
sections on it: requests and responses of any content, proposals, compactions, `persist`
calls and crashes.

* `dirty_flag_sound`: with a clear `dirty` flag the store holds the durable fields of the
  node, whatever saves have failed before.
* `answers_durable_iff`: the terms the node has answered with survive a crash at every
  point of a run exactly when no answer that is given without `persist` carries a term
  beyond the one in the store.
-/

namespace KvStore.Raft

variable {Id : Type} [DecidableEq Id]

namespace Process

/-- The process after `SetRaftStore` (pkg/raft/persistence.go:183) has loaded `st`. -/
def opened (n : Node Id) (st : RaftState Id) : Process Id :=
  { node := n.setRaftStore st, disk := st, election := none, apply := .idle, compactor := .idle
    tasks := [] }

/-! ## The dirty flag -/

/-- What may happen to a node with a raft store. -/
inductive Call (Id : Type) where
  /-- a critical section -/
  | exec (inp : Input Id)
  /-- `CompactLog` with any arguments -/
  | compactLog (index : ℕ) (label : ℤ)
  /-- `persist` whose `Save` fails after the file has been replaced (pkg/raft/persistence.go:73) -/
  | lateFailure

def call (p : Process Id) : Call Id → Option (Process Id)
  | .exec inp => (p.step inp).map (·.proc)
  | .compactLog index label => some { p with node := p.node.compactLog index label }
  | .lateFailure => if p.node.dirty then some { p with disk := p.node.raftState } else none

/-- The flag may only be clear when the store holds the node. -/
theorem clean_of_call {p p' : Process Id} {c : Call Id} (hc : p.node.dirty = false → p.Clean)
    (h : p.call c = some p') : p'.node.dirty = false → p'.Clean := by
  cases c with
  | exec inp =>
    obtain ⟨e, he, rfl⟩ := Option.map_eq_some_iff.mp h
    exact clean_of_step hc he
  | compactLog index label =>
    cases h
    intro hf
    rcases p.node.compactLog_durableMove index label with hd | ⟨hd, hs⟩
    · rw [hd] at hf
      cases hf
    · rw [Clean, hs]
      exact hc (hd ▸ hf)
  | lateFailure =>
    simp only [call] at h
    split_ifs at h
    cases h
    exact fun _ => rfl

/-- After `SetRaftStore` and any calls, a clear flag means that the store holds the term,
    the vote, the log and the base of the node. -/
theorem dirty_flag_sound (n : Node Id) (st : RaftState Id) (calls : List (Call Id))
    (p : Process Id) (h : calls.foldlM call (opened n st) = some p) (hd : p.node.dirty = false) :
    p.disk = p.node.raftState := by
  have hopen : (opened n st).node.dirty = false → (opened n st).Clean := fun _ => rfl
  generalize opened n st = p₀ at h hopen
  induction calls generalizing p₀ with
  | nil =>
    cases h
    exact hopen hd
  | cons c calls ih =>
    obtain ⟨p₁, hp₁, hrest⟩ := Option.bind_eq_some_iff.mp h
    exact ih p₁ hrest (clean_of_call hopen hp₁)

/-- A new member starts an election; its first `Save` fails, a second one succeeds. -/
theorem dirty_flag_sound_after_retry :
    ∃ p, [.exec .startElection, .exec (.flush false), .exec (.flush true)].foldlM call
        (opened (Node.new (0 : Fin 3) [1, 2]) .empty) = some p ∧
      p.node.dirty = false ∧ p.disk = p.node.raftState :=
  ⟨_, rfl, rfl, dirty_flag_sound (Node.new (0 : Fin 3) [1, 2]) .empty
    [.exec .startElection, .exec (.flush false), .exec (.flush true)] _ rfl rfl⟩

end Process

/-! ## Terms -/

namespace Node

omit [DecidableEq Id] in
theorem handleAppendEntries_term {n : Node Id} {req : AppendEntriesRequest Id}
    (h : ¬ req.term < n.term) : (n.handleAppendEntries req).1.term = req.term :=
  (congrArg Prod.fst (handleAppendEntries_ballot h)).trans (follow_term h _)

omit [DecidableEq Id] in
theorem handleInstallSnapshot_term {n : Node Id} {req : InstallSnapshotRequest Id}
    (h : ¬ req.term < n.term) : (n.handleInstallSnapshot req).1.term = req.term :=
  (congrArg Prod.fst (handleInstallSnapshot_ballot h)).trans (follow_term h _)

/-- The term of an answer to a vote request. -/
theorem handleRequestVote_answer (n : Node Id) (req : VoteRequest Id) :
    (n.handleRequestVote req).2.term = max n.term req.term ∧
      (n.handleRequestVote req).1.term = max n.term req.term := by
  unfold handleRequestVote adoptTerm
  split_ifs with hlt hgt
  · exact ⟨(max_eq_left hlt.le).symm, (max_eq_left hlt.le).symm⟩
  · have hmax : max n.term req.term = req.term := max_eq_right hgt.le
    dsimp only
    split_ifs <;> exact ⟨hmax.symm, hmax.symm⟩
  · have hmax : max n.term req.term = n.term := max_eq_left (not_lt.mp hgt)
    dsimp only
    split_ifs <;> exact ⟨hmax.symm, hmax.symm⟩

omit [DecidableEq Id] in
/-- The term of an answer to an `AppendEntries`. -/
theorem handleAppendEntries_answer (n : Node Id) (req : AppendEntriesRequest Id) :
    (n.handleAppendEntries req).2.1.term = max n.term req.term ∧
      (n.handleAppendEntries req).1.term = max n.term req.term := by
  by_cases hlt : req.term < n.term
  · simp [handleAppendEntries, hlt, hlt.le]
  · have hmax : max n.term req.term = req.term := max_eq_right (not_lt.mp hlt)
    rw [hmax]
    refine ⟨?_, handleAppendEntries_term hlt⟩
    have hfollow := follow_term hlt req.leaderID
    simp only [handleAppendEntries, hlt, ite_false]
    split_ifs <;> exact hfollow

omit [DecidableEq Id] in
/-- The term of an answer to an `InstallSnapshot`. -/
theorem handleInstallSnapshot_answer (n : Node Id) (req : InstallSnapshotRequest Id) :
    (n.handleInstallSnapshot req).2.1.term = max n.term req.term ∧
      (n.handleInstallSnapshot req).1.term = max n.term req.term := by
  by_cases hlt : req.term < n.term
  · simp [handleInstallSnapshot, hlt, hlt.le]
  · have hmax : max n.term req.term = req.term := max_eq_right (not_lt.mp hlt)
    rw [hmax]
    refine ⟨?_, handleInstallSnapshot_term hlt⟩
    have hfollow := follow_term hlt req.leaderID
    simp only [handleInstallSnapshot, hlt, ite_false]
    split_ifs <;> exact hfollow

end Node

namespace Process

/-- No section but a restart lowers the term. -/
theorem term_le_of_step {p : Process Id} {inp : Input Id} {e : Effect Id}
    (hstep : p.step inp = some e) (hr : inp ≠ .restart) : p.node.term ≤ e.proc.node.term := by
  by_cases hforget : p.forgetsVote inp
  · obtain ⟨hin, -, -⟩ := hforget
    cases inp with
    | stepDown =>
      simp only [step] at hstep
      split_ifs at hstep
      cases hstep
      exact le_refl _
    | endElection =>
      simp only [step] at hstep
      split at hstep <;> try contradiction
      split_ifs at hstep
      cases hstep
      unfold endElection
      split_ifs <;> exact le_refl _
    | appendEntries req =>
      have hle := le_of_le_of_eq (le_max_left _ _) (p.node.handleAppendEntries_answer req).2.symm
      simp only [step] at hstep
      split at hstep <;> cases hstep <;> exact hle
    | installSnapshot req =>
      have hle := le_of_le_of_eq (le_max_left _ _) (p.node.handleInstallSnapshot_answer req).2.symm
      simp only [step] at hstep
      split at hstep <;> cases hstep
      · exact le_refl _
      · exact hle
    | _ => simp [stepsDownInPlace] at hin
  · exact (voteMove hstep hr hforget).term_le

/-! ## Answers -/

end Process

/-- The term a response carries. -/
def Msg.answerTerm : Msg Id → Option ℤ
  | .voteResp _ _ _ resp => some resp.term
  | .appendResp _ _ _ resp => some resp.term
  | .snapResp _ _ _ resp => some resp.term
  | _ => none

/-- The term of the answer that a handler will return after its `persist`. -/
def Task.answerTerm : Task Id → Option ℤ
  | .vote _ resp => some resp.term
  | .append _ resp => some resp.term
  | .snapshot _ resp => some resp.term
  | _ => none

/-- The section runs `persist` for a handler and returns its answer. -/
def Input.answersLate : Input Id → Bool
  | .persistVote .. => true
  | .persistAppend .. => true
  | .persistSnapshot .. => true
  | _ => false

namespace Process

/-- One more section, keeping what was sent before. -/
def Effect.next (e : Effect Id) (inp : Input Id) : Option (Effect Id) :=
  (e.proc.step inp).map fun e' =>
    { proc := e'.proc, sent := e.sent ++ e'.sent, events := e.events ++ e'.events }

/-- A sequence of sections. -/
def exec (p : Process Id) (inputs : List (Input Id)) : Option (Effect Id) :=
  inputs.foldlM Effect.next { proc := p }

theorem exec_concat {p : Process Id} {inputs : List (Input Id)} {inp : Input Id} {e : Effect Id} :
    p.exec (inputs ++ [inp]) = some e ↔ ∃ e₀, p.exec inputs = some e₀ ∧ e₀.next inp = some e := by
  simp [exec, List.foldlM_append, Option.bind_eq_some_iff]

/-- After a crash here and a restart through `SetRaftStore` the term is not lower than any
    that was answered with. -/
def Effect.Durable (e : Effect Id) : Prop :=
  ∀ m ∈ e.sent, ∀ t, m.answerTerm = some t → t ≤ e.proc.restart.node.term

/-- If the request is answered without `persist`, the term of the answer is in the store. -/
def answersSaved (p : Process Id) : Input Id → Prop
  | .requestVote req =>
    (p.node.handleRequestVote req).2.voteGranted = true ∨ max p.node.term req.term ≤ p.disk.term
  | .appendEntries req =>
    (p.node.handleAppendEntries req).2.2 = true ∨ max p.node.term req.term ≤ p.disk.term
  | .installSnapshot req => p.node.term ≤ req.term ∨ p.node.term ≤ p.disk.term
  | _ => True

/-- What holds along a run in which every unsaved answer is covered by the store. -/
structure TermsSaved (e : Effect Id) : Prop where
  clean : e.proc.node.dirty = false → e.proc.Clean
  disk : e.proc.disk.term ≤ e.proc.node.term
  answered : ∀ m ∈ e.sent, ∀ t, m.answerTerm = some t → t ≤ e.proc.disk.term
  pending : ∀ task ∈ e.proc.tasks, ∀ t, task.answerTerm = some t → t ≤ e.proc.node.term

/-- The term in the store only grows. -/
theorem disk_term_le_of_step {p : Process Id} {inp : Input Id} {e : Effect Id}
    (hd : p.disk.term ≤ p.node.term) (hstep : p.step inp = some e) :
    p.disk.term ≤ e.proc.disk.term ∧ e.proc.disk.term ≤ e.proc.node.term := by
  by_cases hr : inp = .restart
  · subst hr
    cases hstep
    exact ⟨le_refl _, le_refl _⟩
  · have hterm := term_le_of_step hstep hr
    cases diskMove hstep hr with
    | keep hk _ => exact ⟨by rw [hk], by rw [hk]; exact hd.trans hterm⟩
    | save hc _ _ =>
      have heq : e.proc.disk.term = e.proc.node.term := congrArg RaftState.term hc
      exact ⟨heq ▸ hd.trans hterm, heq.le⟩

omit [DecidableEq Id] in
theorem persist_saved (p : Process Id) : (p.persist true).1 = true := by
  by_cases h : p.node.dirty = false <;> simp [persist, Node.persist, h]

/-- A handler that answers after its `persist` leaves the node in the store. -/
theorem clean_of_answer {p : Process Id} {inp : Input Id} {e : Effect Id}
    (hc : p.node.dirty = false → p.Clean) (hs : inp.saved = true) (hstep : p.step inp = some e)
    (hin : inp.answersLate = true) : e.proc.Clean ∧ e.proc.node.term = p.node.term := by
  have hpersist : ∀ t : Task Id, ((p.next t p.node []).persist true).2.Clean ∧
      ((p.next t p.node []).persist true).2.node.term = p.node.term := fun t =>
    ⟨persist_clean hc (persist_saved _), congrArg Prod.fst (persist_node_ballot _ _)⟩
  cases inp with
  | persistVote req resp saved =>
    obtain rfl : saved = true := hs
    simp only [step] at hstep
    split at hstep <;> cases hstep
    exact hpersist _
  | persistAppend req resp saved =>
    obtain rfl : saved = true := hs
    simp only [step] at hstep
    split at hstep <;> cases hstep
    exact hpersist _
  | persistSnapshot req resp saved =>
    obtain rfl : saved = true := hs
    simp only [step] at hstep
    split at hstep <;> cases hstep
    exact hpersist _
  | _ => cases hin

omit [DecidableEq Id] in
theorem TermsSaved.opened (n : Node Id) (st : RaftState Id) :
    TermsSaved { proc := opened n st } where
  clean _ := rfl
  disk := le_refl _
  answered := by simp
  pending := by simp [Process.opened]

/-- One more section. -/
theorem TermsSaved.next {e e' : Effect Id} {inp : Input Id} (h : TermsSaved e)
    (hs : inp.saved = true) (hok : e.proc.answersSaved inp) (hnext : e.next inp = some e') :
    TermsSaved e' := by
  obtain ⟨e₁, hstep, rfl⟩ := Option.map_eq_some_iff.mp hnext
  obtain ⟨hgrow, hdisk⟩ := disk_term_le_of_step h.disk hstep
  have hclean := clean_of_step h.clean hstep
  refine ⟨hclean, hdisk, ?_, ?_⟩
  · intro m hm t ht
    rcases List.mem_append.mp hm with hm | hm
    · exact (h.answered m hm t ht).trans hgrow
    · -- an answer given after `persist` is covered by the node, any other one by the store
      have hsaved : inp.answersLate = true → t ≤ e.proc.node.term → t ≤ e₁.proc.disk.term := by
        intro hin hle
        obtain ⟨hstored, hterm⟩ := clean_of_answer h.clean hs hstep hin
        rw [hstored]
        exact hle.trans hterm.ge
      cases send_of_step hstep hm with
      | voteReq => cases ht
      | appendReq => cases ht
      | snapReq => cases ht
      | voteDenied req hdeny =>
        rcases hok with hgrant | hle
        · rw [hdeny] at hgrant
          cases hgrant
        · cases ht
          rw [(e.proc.node.handleRequestVote_answer req).1]
          exact hle.trans hgrow
      | voteSaved req resp saved htask =>
        exact hsaved rfl (h.pending _ htask t ht)
      | voteUnsaved req resp saved htask =>
        cases ht
        exact hsaved rfl (le_refl _)
      | appendAnswer req hsame =>
        rcases hok with hchanged | hle
        · rw [hsame] at hchanged
          cases hchanged
        · cases ht
          rw [(e.proc.node.handleAppendEntries_answer req).1]
          exact hle.trans hgrow
      | appendSaved req resp saved htask =>
        exact hsaved rfl (h.pending _ htask t ht)
      | appendUnsaved req resp saved htask =>
        cases ht
        exact hsaved rfl (le_refl _)
      | snapStale req hlt =>
        cases ht
        rcases hok with hle | hle
        · exact absurd hlt (not_lt.mpr hle)
        · exact hle.trans hgrow
      | snapAnswer req resp saved htask =>
        exact hsaved rfl (h.pending _ htask t ht)
  · intro task htask t ht
    rcases task_of_step hstep htask with ⟨hold, hr⟩ | hspawn
    · have hmono := term_le_of_step hstep hr
      exact (h.pending task hold t ht).trans hmono
    · cases hspawn with
      | vote req hgrant =>
        cases ht
        rw [requestVote_node hstep, (e.proc.node.handleRequestVote_answer req).1,
          (e.proc.node.handleRequestVote_answer req).2]
      | append req hchanged =>
        cases ht
        rw [appendEntries_node hstep, (e.proc.node.handleAppendEntries_answer req).1,
          (e.proc.node.handleAppendEntries_answer req).2]
      | snapshot req hlt =>
        cases ht
        rw [installSnapshot_node hstep, (e.proc.node.handleInstallSnapshot_answer req).1,
          (e.proc.node.handleInstallSnapshot_answer req).2]
      | _ => cases ht

/-- The request is answered with a term that is not in the store. -/
theorem unsaved_answer {p : Process Id} {inp : Input Id} (h : ¬ p.answersSaved inp) :
    ∃ e m t, p.step inp = some e ∧ m ∈ e.sent ∧ m.answerTerm = some t ∧ e.proc.disk.term < t := by
  cases inp with
  | requestVote req =>
    simp only [answersSaved, not_or, not_le, Bool.not_eq_true] at h
    refine ⟨_, _, _, by simp only [step, h.1]; rfl, List.mem_singleton_self _, rfl, ?_⟩
    rw [(p.node.handleRequestVote_answer req).1]
    exact h.2
  | appendEntries req =>
    simp only [answersSaved, not_or, not_le, Bool.not_eq_true] at h
    refine ⟨_, _, _, by simp only [step, h.1]; rfl, List.mem_singleton_self _, rfl, ?_⟩
    rw [(p.node.handleAppendEntries_answer req).1]
    exact h.2
  | installSnapshot req =>
    simp only [answersSaved, not_or, not_le] at h
    refine ⟨_, _, _, by simp only [step, h.1, ite_true]; rfl, List.mem_singleton_self _, rfl, ?_⟩
    rw [(p.node.handleInstallSnapshot_answer req).1, max_eq_left h.1.le]
    exact h.2
  | _ => exact absurd trivial h

/-- A run of a node on its store, all saves succeeding: whatever it has answered with
    survives a crash at every point of the run exactly when every answer that is given
    without `persist` carries a term that is in the store. -/
theorem answers_durable_iff (n : Node Id) (st : RaftState Id) (inputs : List (Input Id))
    (hs : ∀ inp ∈ inputs, inp.saved = true) :
    (∀ pre, pre <+: inputs → ∀ e, (opened n st).exec pre = some e → e.Durable) ↔
      ∀ pre inp, pre ++ [inp] <+: inputs → ∀ e, (opened n st).exec pre = some e →
        e.proc.answersSaved inp := by
  constructor
  · intro h pre inp hpre e he
    by_contra hbad
    obtain ⟨e', m, t, hstep, hm, ht, hlt⟩ := unsaved_answer hbad
    have hexec : (opened n st).exec (pre ++ [inp]) = some
        { proc := e'.proc, sent := e.sent ++ e'.sent, events := e.events ++ e'.events } :=
      exec_concat.mpr ⟨e, he, Option.map_eq_some_iff.mpr ⟨e', hstep, rfl⟩⟩
    have hle := h _ hpre _ hexec m (List.mem_append_right _ hm) t ht
    exact absurd hle (not_le.mpr hlt)
  · intro h pre hpre e he
    suffices hinv : TermsSaved e from fun m hm t ht => hinv.answered m hm t ht
    induction pre using List.reverseRecOn generalizing e with
    | nil =>
      cases he
      exact .opened n st
    | append_singleton pre inp ih =>
      obtain ⟨e₀, he₀, hnext⟩ := exec_concat.mp he
      have hinit : pre <+: inputs := (List.prefix_append pre [inp]).trans hpre
      have hsaved : inp.saved = true := hs inp (hpre.subset (by simp))
      exact (ih hinit e₀ he₀).next hsaved (h pre inp hpre e₀ he₀) hnext

/-- A leader of term 5 that asks for an entry the node does not have. -/
def gapRequest : AppendEntriesRequest (Fin 3) :=
  { term := 5, leaderID := 1, prevLogIndex := 3, prevLogTerm := 2, entries := [], leaderCommit := 0 }

/-- A new member is sent its first entry by the leader of term 1. -/
def firstRequest : AppendEntriesRequest (Fin 3) :=
  { term := 1, leaderID := 1, prevLogIndex := 0, prevLogTerm := 0
    entries := [{ term := 1, cmd := { op := .put, key := [107], value := [53] } }]
    leaderCommit := 0 }

/-- The entry is saved before it is acknowledged in term 1. -/
theorem first_answer_durable :
    ∃ e, (opened (Node.new (0 : Fin 3) [1, 2]) .empty).exec
        [.appendEntries firstRequest, .persistAppend firstRequest ⟨1, true⟩ true] = some e ∧
      e.Durable := by
  refine ⟨_, rfl, (answers_durable_iff (Node.new (0 : Fin 3) [1, 2]) .empty
    [.appendEntries firstRequest, .persistAppend firstRequest ⟨1, true⟩ true] (by decide)).mpr ?_
    _ (List.prefix_refl _) _ rfl⟩
  intro pre inp hpre e he
  rcases pre with - | ⟨a, - | ⟨b, pre⟩⟩
  · obtain rfl : inp = .appendEntries firstRequest := by simpa using hpre
    cases he
    exact .inl (by decide)
  · obtain ⟨-, rfl⟩ : _ ∧ inp = .persistAppend firstRequest ⟨1, true⟩ true := by simpa using hpre
    trivial
  · simp at hpre

/-- The rejection carries term 5; after a crash the node is in term 0 again. -/
theorem rejected_answer_forgotten :
    ¬ ∀ pre, pre <+: [.appendEntries gapRequest] →
      ∀ e, (opened (Node.new (0 : Fin 3) [1, 2]) .empty).exec pre = some e → e.Durable := by
  intro h
  have hd := h _ (List.prefix_refl _) _ rfl _ (List.mem_singleton_self _) 5 rfl
  revert hd
  decide

end Process

end KvStore.Raft
