import KvStore.Raft.Cluster

/-!
# The dirty flag and the raft store

`persist` skips `Save` when `dirty` is clear. This is sound because every
critical section either leaves the durable fields of the node alone or sets the
flag (`Process.durableMove`), so that a clear flag means that the store holds
the node's term, vote, log and base (`Process.Clean`).

No section changes the identity of a node (`Process.step_ident`).
-/

namespace KvStore.Raft

variable {Id : Type}

namespace Node

/-- Everything one critical section can do to the durable fields. -/
def DurableMove (n n' : Node Id) : Prop :=
  n'.dirty = true ∨ (n'.dirty = n.dirty ∧ n'.raftState = n.raftState)

theorem DurableMove.refl (n : Node Id) : DurableMove n n := .inr ⟨rfl, rfl⟩

theorem DurableMove.trans {a b c : Node Id} (h1 : DurableMove a b) (h2 : DurableMove b c) :
    DurableMove a c := by
  rcases h2 with h | ⟨h, h'⟩
  · exact .inl h
  · rcases h1 with g | ⟨g, g'⟩
    · exact .inl (h.trans g)
    · exact .inr ⟨h.trans g, h'.trans g'⟩

/-- The loop of `mergeEntries` reports `false` only if it leaves the log alone. -/
theorem mergeLoop_unchanged (n : Node Id) {changed : Bool} {idx : ℤ} {es : List Entry}
    (h : (n.mergeLoop changed idx es).2 = false) :
    changed = false ∧ (n.mergeLoop changed idx es).1 = n.log := by
  induction es generalizing idx with
  | nil => exact ⟨h, rfl⟩
  | cons e rest ih =>
    unfold mergeLoop at h ⊢
    split_ifs at h ⊢ with h1 h2 h3
    · exact ih h
    · exact ih h

/-- `mergeEntries` reports `false` only if it leaves the log alone. -/
theorem mergeEntries_unchanged {n : Node Id} {req : AppendEntriesRequest Id}
    (h : (n.mergeEntries req).2 = false) : (n.mergeEntries req).1 = n := by
  obtain ⟨h1, h2⟩ := mergeLoop_unchanged _ h
  have hstop : ¬ req.prevLogIndex + req.entries.length < n.lastLogIndex := by simpa using h1
  have hn : n.dropSuffix (req.prevLogIndex + req.entries.length) = n := by
    unfold dropSuffix; rw [if_neg hstop]
  unfold mergeEntries
  dsimp only
  rw [h2, hn]

theorem follow_durableMove (n : Node Id) (t : ℤ) (l : Id) : DurableMove n (n.follow t l) := by
  unfold follow
  split_ifs
  · exact .inl rfl
  · exact .inr ⟨rfl, rfl⟩

variable [DecidableEq Id]

theorem handleRequestVote_durableMove (n : Node Id) (req : VoteRequest Id) :
    DurableMove n (n.handleRequestVote req).1 := by
  unfold handleRequestVote adoptTerm
  split_ifs with h1 h2
  · exact .refl n
  · dsimp only
    split_ifs <;> exact .inl rfl
  · dsimp only
    split_ifs
    · exact .inl rfl
    · exact .refl n

omit [DecidableEq Id] in
theorem handleAppendEntries_durableMove (n : Node Id) (req : AppendEntriesRequest Id) :
    DurableMove n (n.handleAppendEntries req).1 := by
  unfold handleAppendEntries
  split_ifs with h1
  · exact .refl n
  · dsimp only
    refine (follow_durableMove n req.term req.leaderID).trans ?_
    split_ifs with h2 h3 h4 h4
    · exact .inl rfl
    · exact .inl rfl
    · exact .inl rfl
    · rw [mergeEntries_unchanged (by simpa using h3)]
      exact .refl _
    · exact .refl _

omit [DecidableEq Id] in
theorem handleInstallSnapshot_durableMove (n : Node Id) (req : InstallSnapshotRequest Id) :
    DurableMove n (n.handleInstallSnapshot req).1 := by
  unfold handleInstallSnapshot
  split_ifs with h1
  · exact .refl n
  · dsimp only
    refine (follow_durableMove n req.term req.leaderID).trans ?_
    split_ifs with h2
    · exact .inl rfl
    · exact .refl _

theorem handleAppendResponse_durableMove (n : Node Id) (q : Id) (req : AppendEntriesRequest Id)
    (resp : AppendEntriesResponse) : DurableMove n (n.handleAppendResponse q req resp) := by
  unfold handleAppendResponse
  dsimp only
  split_ifs
  · exact .inl rfl
  all_goals exact .inr ⟨rfl, rfl⟩

theorem handleSnapshotResponse_durableMove (n : Node Id) (q : Id)
    (req : InstallSnapshotRequest Id) (resp : InstallSnapshotResponse) :
    DurableMove n (n.handleSnapshotResponse q req resp) := by
  unfold handleSnapshotResponse
  dsimp only
  split_ifs
  · exact .inl rfl
  all_goals exact .inr ⟨rfl, rfl⟩

omit [DecidableEq Id] in
theorem appendEntry_durableMove (n : Node Id) (cmd : Storage.Command) :
    DurableMove n (n.appendEntry cmd) := by
  unfold appendEntry; dsimp only; split_ifs <;> exact .inl rfl

omit [DecidableEq Id] in
theorem compactLog_durableMove (n : Node Id) (k : ℕ) (t : ℤ) :
    DurableMove n (n.compactLog k t) := by
  unfold compactLog
  split
  · exact .refl n
  · exact .inl rfl

/-! ## Identity -/

/-- What a node is configured with. -/
def ident (n : Node Id) : Id × List Id := (n.id, n.peers)

omit [DecidableEq Id] in
theorem follow_ident (n : Node Id) (t : ℤ) (l : Id) : (n.follow t l).ident = n.ident := by
  unfold follow; split_ifs <;> rfl

theorem handleRequestVote_ident (n : Node Id) (req : VoteRequest Id) :
    (n.handleRequestVote req).1.ident = n.ident := by
  unfold handleRequestVote adoptTerm; dsimp only; split_ifs <;> rfl

omit [DecidableEq Id] in
theorem handleAppendEntries_ident (n : Node Id) (req : AppendEntriesRequest Id) :
    (n.handleAppendEntries req).1.ident = n.ident := by
  unfold handleAppendEntries
  dsimp only
  split_ifs
  · rfl
  all_goals exact follow_ident n req.term req.leaderID

omit [DecidableEq Id] in
theorem handleInstallSnapshot_ident (n : Node Id) (req : InstallSnapshotRequest Id) :
    (n.handleInstallSnapshot req).1.ident = n.ident := by
  unfold handleInstallSnapshot
  dsimp only
  split_ifs
  · rfl
  all_goals exact follow_ident n req.term req.leaderID

omit [DecidableEq Id] in
theorem persist_ident (n : Node Id) (d : RaftState Id) (saved : Bool) :
    (n.persist d saved).2.1.ident = n.ident := by
  unfold persist; split_ifs <;> rfl

omit [DecidableEq Id] in
theorem appendEntry_ident (n : Node Id) (cmd : Storage.Command) :
    (n.appendEntry cmd).ident = n.ident := by
  unfold appendEntry; dsimp only; split_ifs <;> rfl

omit [DecidableEq Id] in
theorem compactLog_ident (n : Node Id) (k : ℕ) (t : ℤ) : (n.compactLog k t).ident = n.ident := by
  unfold compactLog; split <;> rfl

end Node

namespace Process

/-- The store holds the durable fields of the node. -/
def Clean (p : Process Id) : Prop := p.disk = p.node.raftState

/-- How one section moves the store: it stays, or it receives the node. -/
inductive DiskMove (p p' : Process Id) : Prop
  | keep (hd : p'.disk = p.disk) (hn : Node.DurableMove p.node p'.node)
  | save (hd : p'.Clean) (hn : p'.node.raftState = p.node.raftState) (hf : p'.node.dirty = false)

theorem persist_diskMove (p : Process Id) (saved : Bool) : DiskMove p (p.persist saved).2 := by
  unfold persist Node.persist
  split_ifs
  · exact .keep rfl (.refl _)
  · exact .save rfl rfl rfl
  · exact .keep rfl (.refl _)

/-- After a `persist` that returned `nil` the store holds the node. -/
theorem persist_clean {p : Process Id} {saved : Bool} (hc : p.node.dirty = false → p.Clean)
    (h : (p.persist saved).1 = true) : (p.persist saved).2.Clean := by
  unfold persist Node.persist at h ⊢
  split_ifs at h ⊢ with h1 h2
  · exact hc h1
  · rfl

/-- `DiskMove` only looks at the node and the store. -/
theorem DiskMove.congr {p p' q q' : Process Id} (h : DiskMove p p') (hn : q.node = p.node)
    (hd : q.disk = p.disk) (hn' : q'.node = p'.node) (hd' : q'.disk = p'.disk) : DiskMove q q' := by
  cases h with
  | keep h1 h2 => exact .keep (by rw [hd', h1, hd]) (by rw [hn, hn']; exact h2)
  | save h1 h2 h3 =>
    refine .save ?_ (by rw [hn, hn', h2]) (by rw [hn', h3])
    unfold Clean at h1 ⊢
    rw [hd', hn', h1]

variable [DecidableEq Id]

/-- Every section except a restart makes a `DiskMove`. -/
theorem diskMove {p : Process Id} {inp : Input Id} {e : Effect Id} (hstep : p.step inp = some e)
    (hr : inp ≠ .restart) : DiskMove p e.proc := by
  cases inp with
  | restart => exact absurd rfl hr
  | requestVote req =>
    simp only [step] at hstep
    split at hstep <;> (cases hstep; exact .keep rfl (Node.handleRequestVote_durableMove _ _))
  | appendEntries req =>
    simp only [step] at hstep
    split at hstep <;> (cases hstep; exact .keep rfl (Node.handleAppendEntries_durableMove _ _))
  | installSnapshot req =>
    simp only [step] at hstep
    split at hstep <;> cases hstep
    · exact .keep rfl (.refl _)
    · exact .keep rfl (Node.handleInstallSnapshot_durableMove _ _)
  | propose cmd =>
    simp only [step] at hstep
    split at hstep <;> cases hstep
    exact .keep rfl (Node.appendEntry_durableMove _ _)
  | appendResponse q req resp =>
    simp only [step] at hstep
    split at hstep <;> cases hstep
    exact .keep rfl (Node.handleAppendResponse_durableMove _ _ _ _)
  | snapshotResponse q req resp =>
    simp only [step] at hstep
    split at hstep <;> cases hstep
    exact .keep rfl (Node.handleSnapshotResponse_durableMove _ _ _ _)
  | compactLog =>
    simp only [step] at hstep
    split at hstep <;> cases hstep
    exact .keep rfl (Node.compactLog_durableMove _ _ _)
  | voteResponse q req resp =>
    simp only [step] at hstep
    split at hstep <;> try contradiction
    split at hstep <;> cases hstep
    unfold voteResponse
    split
    · exact .keep rfl (.inl rfl)
    · exact .keep rfl (.refl _)
  | endElection =>
    simp only [step] at hstep
    split at hstep <;> try contradiction
    split at hstep <;> cases hstep
    unfold endElection
    split
    · exact .keep rfl (.inr ⟨rfl, rfl⟩)
    · exact .keep rfl (.inl rfl)
  | _ =>
    simp only [step] at hstep
    repeat' split at hstep
    all_goals try cases hstep
    all_goals first
      | exact (persist_diskMove _ _).congr rfl rfl rfl rfl
      | exact .keep rfl (.inr ⟨rfl, rfl⟩)
      | exact .keep rfl (.inl rfl)

/-- The store after a section: it stays, or it receives the node. -/
theorem disk_of_step {p : Process Id} {inp : Input Id} {e : Effect Id}
    (hstep : p.step inp = some e) : e.proc.disk = p.disk ∨ e.proc.Clean := by
  by_cases hr : inp = .restart
  · subst hr
    cases hstep
    exact .inl rfl
  · cases diskMove hstep hr with
    | keep hd _ => exact .inl hd
    | save hc _ _ => exact .inr hc

/-- The dirty flag is sound: it may only be clear when the store holds the node. -/
theorem clean_of_step {p : Process Id} {inp : Input Id} {e : Effect Id}
    (hc : p.node.dirty = false → p.Clean) (hstep : p.step inp = some e) :
    e.proc.node.dirty = false → e.proc.Clean := by
  intro hf
  by_cases hr : inp = .restart
  · subst hr
    simp only [step, Option.some.injEq] at hstep
    rw [← hstep]
    simp [Clean, restart, Node.setRaftStore, Node.raftState]
  · cases diskMove hstep hr with
    | keep hd hn =>
      rcases hn with hn | ⟨h1, h2⟩
      · rw [hn] at hf; cases hf
      · unfold Clean
        rw [hd, h2]
        exact hc (h1 ▸ hf)
    | save hd _ _ => exact hd

/-- No section changes the identity of the node. -/
theorem step_ident {p : Process Id} {inp : Input Id} {e : Effect Id} (hstep : p.step inp = some e) :
    e.proc.node.ident = p.node.ident := by
  cases inp with
  | requestVote req =>
    rw [requestVote_node hstep]
    exact Node.handleRequestVote_ident _ _
  | appendEntries req =>
    rw [appendEntries_node hstep]
    exact Node.handleAppendEntries_ident _ _
  | installSnapshot req =>
    rw [installSnapshot_node hstep]
    exact Node.handleInstallSnapshot_ident _ _
  | voteResponse q req resp =>
    simp only [step] at hstep
    split at hstep <;> try contradiction
    split at hstep <;> cases hstep
    unfold voteResponse
    split <;> rfl
  | endElection =>
    simp only [step] at hstep
    split at hstep <;> try contradiction
    split at hstep <;> cases hstep
    unfold endElection
    split <;> rfl
  | appendResponse q req resp =>
    simp only [step] at hstep
    split at hstep <;> cases hstep
    simp only [next, Node.handleAppendResponse]
    split_ifs <;> rfl
  | snapshotResponse q req resp =>
    simp only [step] at hstep
    split at hstep <;> cases hstep
    simp only [next, Node.handleSnapshotResponse]
    split_ifs <;> rfl
  | _ =>
    simp only [step] at hstep
    repeat' split at hstep
    all_goals try cases hstep
    all_goals first
      | rfl
      | exact Node.persist_ident _ _ _
      | exact Node.appendEntry_ident _ _
      | exact Node.compactLog_ident _ _ _

end Process

end KvStore.Raft
