import KvStore.Raft.NodeRuns

/-!
# A store that cannot be read

`SetRaftStore` (pkg/raft/persistence.go:183) wires the store before it reads it, and the server
goes on when reading fails (cmd/server/main.go:139). The node then starts from nothing, with a
store that still holds the term and the vote of before, and the next `persist` that finds the
node changed overwrites them.

* `Process.dirties`: the sections that change what is durable, by what they find.
* `dirty_of_step`: what one section does to the `dirty` flag.
* `unreadable_kept_iff`: nothing is saved in a run exactly if no `persist` comes after a section
  that changes something.
* `unreadable_overwritten`: the first election after the failure.
-/

namespace KvStore.Raft

open KvStore.Storage (Command Bytes)

variable {Id : Type}

/-- The section runs `persist`. -/
def Input.persists : Input Id → Bool
  | .persistElection _ => true
  | .persistVote _ _ _ => true
  | .persistAppend _ _ _ => true
  | .persistSnapshot _ _ _ => true
  | .persistPropose _ _ _ _ => true
  | .flush _ => true
  | _ => false

variable [DecidableEq Id]

namespace Process

/-- A new process whose `SetRaftStore` has returned the error of `Load`: the node is as
    `NewNode` made it, and wired to a store that holds `st`. -/
def unreadable (id : Id) (peers : List Id) (st : RaftState Id) : Process Id :=
  { init id peers with disk := st }

/-- The section calls `Save` (pkg/raft/persistence.go:217), whatever comes of it. -/
def callsSave (p : Process Id) (inp : Input Id) : Prop :=
  inp.persists = true ∧ p.node.dirty = true

/-- The section changes the term, the vote, the log, the base or the commit index: an election
    is started or lost, a leader steps down, a greater term is seen, a vote is given, entries or a
    commit index are taken over, a snapshot is installed, a command proposed, the log compacted. -/
def dirties (p : Process Id) : Input Id → Bool
  | .startElection => true
  | .voteResponse _ _ resp => p.node.term < resp.term
  | .endElection => p.stepsDownInPlace .endElection
  | .stepDown => true
  | .requestVote req => p.node.term < req.term || (p.node.handleRequestVote req).2.voteGranted
  | .appendEntries req => p.node.term ≤ req.term && (p.node.term < req.term ||
      p.node.role ≠ .follower || (p.node.handleAppendEntries req).2.2)
  | .installSnapshot req => p.node.term ≤ req.term && (p.node.term < req.term ||
      p.node.role ≠ .follower || p.node.lastApplied < req.lastIncludedIndex)
  | .propose _ => true
  | .appendResponse _ _ resp => p.node.term < resp.term
  | .snapshotResponse _ _ resp => p.node.term < resp.term
  | .compactLog =>
    match p.compactor with
    | .labelled idx _ => p.node.lastIncludedIndex < idx
    | _ => false
  | _ => false

/-- The process after a run of sections. -/
def after (p : Process Id) (inputs : List (Input Id)) : Option (Process Id) :=
  inputs.foldlM (fun p inp => (p.step inp).map (·.proc)) p

end Process

/-! ## One section -/

namespace Node

omit [DecidableEq Id] in
theorem follow_dirty (n : Node Id) (term : ℤ) (leader : Id) :
    (n.follow term leader).dirty = (n.dirty || (n.term < term || n.role ≠ .follower)) := by
  unfold follow
  by_cases h : term > n.term ∨ n.role ≠ .follower
  · rw [if_pos h]
    have hd : (decide (n.term < term) || decide (n.role ≠ .follower)) = true := by simpa using h
    rw [hd, Bool.or_true]
    rfl
  · rw [if_neg h]
    have hd : (decide (n.term < term) || decide (n.role ≠ .follower)) = false := by
      rw [not_or] at h
      simpa using h
    rw [hd, Bool.or_false]

theorem handleRequestVote_dirty (n : Node Id) (req : VoteRequest Id) :
    (n.handleRequestVote req).1.dirty =
      (n.dirty || (n.term < req.term || (n.handleRequestVote req).2.voteGranted)) := by
  by_cases hlt : req.term < n.term
  · simp [handleRequestVote, hlt, not_lt.mpr hlt.le]
  · by_cases hgt : n.term < req.term
    · -- the greater term has been adopted
      simp only [handleRequestVote, if_neg hlt, adoptTerm, gt_iff_lt, if_pos hgt]
      split_ifs <;> simp [becomeFollower, hgt]
    · simp only [handleRequestVote, if_neg hlt, adoptTerm, gt_iff_lt, if_neg hgt]
      split_ifs <;> simp [hgt]

omit [DecidableEq Id] in
theorem handleAppendEntries_dirty (n : Node Id) (req : AppendEntriesRequest Id) :
    (n.handleAppendEntries req).1.dirty =
      (n.dirty || (n.term ≤ req.term && (n.term < req.term ||
        n.role ≠ .follower || (n.handleAppendEntries req).2.2))) := by
  by_cases hlt : req.term < n.term
  · simp [handleAppendEntries, hlt, not_le.mpr hlt]
  · have hfollow := n.follow_dirty req.term req.leaderID
    simp only [not_lt.mp hlt, decide_true, Bool.true_and]
    rw [← Bool.or_assoc, ← hfollow]
    simp only [handleAppendEntries, if_neg hlt]
    by_cases hc : (n.follow req.term req.leaderID).checkPrevLog req.prevLogIndex
        req.prevLogTerm = true
    · rw [if_pos hc]
      cases ((n.follow req.term req.leaderID).mergeEntries req).2 with
      | true =>
        simp only [if_true]
        split_ifs <;> simp [advanceCommit]
      | false =>
        simp only [Bool.false_eq_true, if_false]
        split_ifs <;> simp [advanceCommit, mergeEntries]
    · rw [if_neg hc, Bool.or_false]

omit [DecidableEq Id] in
theorem handleInstallSnapshot_dirty (n : Node Id) (req : InstallSnapshotRequest Id) :
    (n.handleInstallSnapshot req).1.dirty =
      (n.dirty || (n.term ≤ req.term && (n.term < req.term ||
        n.role ≠ .follower || n.lastApplied < req.lastIncludedIndex))) := by
  by_cases hlt : req.term < n.term
  · simp [handleInstallSnapshot, hlt, not_le.mpr hlt]
  · have hfollow := n.follow_dirty req.term req.leaderID
    have happlied : (n.follow req.term req.leaderID).lastApplied = n.lastApplied := by
      unfold follow
      split_ifs <;> rfl
    simp only [not_lt.mp hlt, decide_true, Bool.true_and]
    rw [← Bool.or_assoc, ← hfollow]
    simp only [handleInstallSnapshot, if_neg hlt, happlied, gt_iff_lt]
    split_ifs with h
    · simp [adoptSnapshot, h]
    · simp [h]

theorem handleAppendResponse_dirty (n : Node Id) (peer : Id) (req : AppendEntriesRequest Id)
    (resp : AppendEntriesResponse) :
    (n.handleAppendResponse peer req resp).dirty = (n.dirty || n.term < resp.term) := by
  by_cases h : n.term < resp.term
  · simp [handleAppendResponse, setInFlight, becomeFollower, h]
  · have hold : ¬ resp.term > (n.setInFlight peer false).term := h
    rw [handleAppendResponse, if_neg hold, decide_eq_false h, Bool.or_false]
    split_ifs <;> rfl

theorem handleSnapshotResponse_dirty (n : Node Id) (peer : Id) (req : InstallSnapshotRequest Id)
    (resp : InstallSnapshotResponse) :
    (n.handleSnapshotResponse peer req resp).dirty = (n.dirty || n.term < resp.term) := by
  by_cases h : n.term < resp.term
  · simp [handleSnapshotResponse, setInFlight, becomeFollower, h]
  · have hold : ¬ resp.term > (n.setInFlight peer false).term := h
    rw [handleSnapshotResponse, if_neg hold, decide_eq_false h, Bool.or_false]
    split_ifs <;> rfl

omit [DecidableEq Id] in
theorem compactLog_dirty (n : Node Id) (index : ℕ) (label : ℤ) :
    (n.compactLog index label).dirty = (n.dirty || n.lastIncludedIndex < index) := by
  by_cases h : index ≤ n.lastIncludedIndex
  · simp [compactLog, h]
  · simp [compactLog, h, not_le.mp h]

omit [DecidableEq Id] in
theorem appendEntry_dirty (n : Node Id) (cmd : Command) : (n.appendEntry cmd).dirty = true := by
  unfold appendEntry
  dsimp only
  split_ifs <;> rfl

end Node

namespace Process

variable {p : Process Id} {inp : Input Id} {e : Effect Id}

omit [DecidableEq Id] in
theorem persist_dirty (p : Process Id) (saved : Bool) (h : p.node.dirty = false) :
    (p.persist saved).2.node.dirty = false := by
  simp [persist, Node.persist, h]

/-- A section that runs `persist` does not set the flag. -/
theorem dirty_of_persist (hstep : p.step inp = some e) (hp : inp.persists = true) :
    p.dirties inp = false ∧ (p.node.dirty = false → e.proc.node.dirty = false) := by
  cases inp with
  | persistElection saved =>
    refine ⟨rfl, fun hd => ?_⟩
    simp only [step] at hstep
    split at hstep <;> try contradiction
    split at hstep <;> try contradiction
    split at hstep <;> (cases hstep; exact p.persist_dirty saved hd)
  | persistVote req resp saved =>
    refine ⟨rfl, fun hd => ?_⟩
    simp only [step] at hstep
    split at hstep <;> cases hstep
    exact persist_dirty _ saved hd
  | persistAppend req resp saved =>
    refine ⟨rfl, fun hd => ?_⟩
    simp only [step] at hstep
    split at hstep <;> cases hstep
    exact persist_dirty _ saved hd
  | persistSnapshot req resp saved =>
    refine ⟨rfl, fun hd => ?_⟩
    simp only [step] at hstep
    split at hstep <;> cases hstep
    exact persist_dirty _ saved hd
  | persistPropose index term cmd saved =>
    refine ⟨rfl, fun hd => ?_⟩
    have hpersist := persist_dirty (p.next (.propose index term cmd) p.node []) saved hd
    simp only [step] at hstep
    split at hstep <;> cases hstep
    dsimp only
    split <;> exact hpersist
  | flush saved =>
    cases hstep
    exact ⟨rfl, p.persist_dirty saved⟩
  | _ => simp [Input.persists] at hp

/-- A section that runs no `persist` sets the flag if it changes something. -/
theorem dirty_of_section (hstep : p.step inp = some e) (hp : inp.persists = false)
    (hr : inp ≠ .restart) : e.proc.node.dirty = (p.node.dirty || p.dirties inp) := by
  cases inp with
  | restart => exact absurd rfl hr
  | requestVote req =>
    rw [requestVote_node hstep]
    exact p.node.handleRequestVote_dirty req
  | appendEntries req =>
    rw [appendEntries_node hstep]
    exact p.node.handleAppendEntries_dirty req
  | installSnapshot req =>
    rw [installSnapshot_node hstep]
    exact p.node.handleInstallSnapshot_dirty req
  | voteResponse peer req resp =>
    simp only [step] at hstep
    split at hstep <;> try contradiction
    split at hstep <;> cases hstep
    unfold voteResponse
    by_cases h : p.node.term < resp.term
    · simp [dirties, Node.becomeFollower, h]
    · simp [dirties, h]
  | endElection =>
    simp only [step] at hstep
    split at hstep <;> try contradiction
    next el hel =>
    split at hstep <;> cases hstep
    have hlost : p.dirties .endElection = decide (¬ (el.votes ≥ majority p.node.peers ∧
        p.node.role = .candidate ∧ p.node.term = el.req.term)) := by
      rw [dirties, stepsDownInPlace, hel, Option.all_some]
    rw [hlost, endElection]
    split_ifs with h
    · rw [decide_eq_false (not_not.mpr h), Bool.or_false]
      rfl
    · rw [decide_eq_true h, Bool.or_true]
      rfl
  | appendResponse peer req resp =>
    rw [appendResponse_node hstep]
    exact p.node.handleAppendResponse_dirty peer req resp
  | snapshotResponse peer req resp =>
    rw [snapshotResponse_node hstep]
    exact p.node.handleSnapshotResponse_dirty peer req resp
  | compactLog =>
    simp only [step] at hstep
    split at hstep <;> try contradiction
    next idx label hphase =>
    cases hstep
    simp only [dirties, hphase]
    exact p.node.compactLog_dirty idx label
  | _ =>
    simp only [step] at hstep
    repeat' split at hstep
    all_goals try cases hstep
    all_goals first
      | exact (Bool.or_false _).symm
      | exact (Bool.or_true _).symm
      | exact (p.node.appendEntry_dirty _).trans (Bool.or_true _).symm
      | cases hp

/-- **What one section does to the flag**: a section that runs no `persist` sets it if it changes
    something, and one that runs `persist` does not set it. -/
theorem dirty_of_step (hstep : p.step inp = some e) (hr : inp ≠ .restart) :
    (inp.persists = false ∧ e.proc.node.dirty = (p.node.dirty || p.dirties inp)) ∨
      (inp.persists = true ∧ p.dirties inp = false ∧
        (p.node.dirty = false → e.proc.node.dirty = false)) := by
  cases hp : inp.persists with
  | false => exact .inl ⟨rfl, dirty_of_section hstep hp hr⟩
  | true => exact .inr ⟨rfl, dirty_of_persist hstep hp⟩

/-! ## Whole runs -/

theorem after_append {p p' : Process Id} {xs ys : List (Input Id)} :
    p.after (xs ++ ys) = some p' ↔ ∃ p₁, p.after xs = some p₁ ∧ p₁.after ys = some p' := by
  simp [after, List.foldlM_append, Option.bind_eq_some_iff]

theorem after_cons {p p' : Process Id} {inp : Input Id} {inputs : List (Input Id)} :
    p.after (inp :: inputs) = some p' ↔
      ∃ e, p.step inp = some e ∧ e.proc.after inputs = some p' := by
  simp only [after, List.foldlM_cons, Option.bind_eq_bind, Option.bind_eq_some_iff,
    Option.map_eq_some_iff]
  constructor
  · rintro ⟨p₁, ⟨e, he, rfl⟩, h⟩
    exact ⟨e, he, h⟩
  · rintro ⟨e, he, h⟩
    exact ⟨e.proc, ⟨e, he, rfl⟩, h⟩

/-- No section of the run calls `Save`. -/
def NeverSaves (p : Process Id) (inputs : List (Input Id)) : Prop :=
  ∀ before inp rest, inputs = before ++ inp :: rest →
    ∀ p₁, p.after before = some p₁ → ¬ p₁.callsSave inp

theorem NeverSaves.tail {p : Process Id} {inputs : List (Input Id)}
    (hsave : NeverSaves p (inp :: inputs)) (hstep : p.step inp = some e) :
    NeverSaves e.proc inputs := by
  intro before inp' rest hsplit p₁ hp₁
  exact hsave (inp :: before) inp' rest (by rw [hsplit]; rfl) p₁ (after_cons.mpr ⟨e, hstep, hp₁⟩)

/-- The flag has been set by some section. -/
theorem exists_dirties {p p' : Process Id} {inputs : List (Input Id)}
    (hp : p.node.dirty = false) (hrun : p.after inputs = some p') (hr : .restart ∉ inputs)
    (hd : p'.node.dirty = true) : ∃ before inp rest p₁, inputs = before ++ inp :: rest ∧
      p.after before = some p₁ ∧ p₁.dirties inp = true := by
  induction inputs generalizing p with
  | nil =>
    cases hrun
    rw [hp] at hd
    cases hd
  | cons inp inputs ih =>
    obtain ⟨e, he, hrest⟩ := after_cons.mp hrun
    obtain ⟨hne, hr'⟩ := not_or.mp (mt List.mem_cons.mpr hr)
    by_cases hdirt : p.dirties inp = true
    · exact ⟨[], inp, inputs, p, rfl, rfl, hdirt⟩
    · have hclean : e.proc.node.dirty = false := by
        rcases dirty_of_step he (Ne.symm hne) with ⟨-, heq⟩ | ⟨-, -, hkeep⟩
        · rw [heq, hp, Bool.false_or]
          simpa using hdirt
        · exact hkeep hp
      obtain ⟨before, inp', rest, p₁, hsplit, hp₁, hd₁⟩ := ih hclean hrest hr'
      exact ⟨inp :: before, inp', rest, p₁, by rw [hsplit]; rfl, after_cons.mpr ⟨e, he, hp₁⟩, hd₁⟩

/-- Without a `Save` the flag stays set. -/
theorem NeverSaves.dirty {p p' : Process Id} {inputs : List (Input Id)}
    (hsave : NeverSaves p inputs) (hp : p.node.dirty = true) (hrun : p.after inputs = some p')
    (hr : .restart ∉ inputs) : p'.node.dirty = true := by
  induction inputs generalizing p with
  | nil =>
    cases hrun
    exact hp
  | cons inp inputs ih =>
    obtain ⟨e, he, hrest⟩ := after_cons.mp hrun
    obtain ⟨hne, hr'⟩ := not_or.mp (mt List.mem_cons.mpr hr)
    refine ih (hsave.tail he) ?_ hrest hr'
    rcases dirty_of_step he (Ne.symm hne) with ⟨-, heq⟩ | ⟨hpersists, -, -⟩
    · rw [heq, hp, Bool.true_or]
    · exact absurd ⟨hpersists, hp⟩ (hsave [] inp inputs rfl p rfl)

/-- **A store that cannot be read is left alone exactly if no `persist` comes after a section that
    changes something.** -/
theorem unreadable_kept_iff (id : Id) (peers : List Id) (st : RaftState Id)
    (inputs : List (Input Id)) (p' : Process Id)
    (hrun : (unreadable id peers st).after inputs = some p') (hr : .restart ∉ inputs) :
    NeverSaves (unreadable id peers st) inputs ↔
      ∀ before inp between inp' rest, inputs = before ++ inp :: (between ++ inp' :: rest) →
        ∀ p, (unreadable id peers st).after before = some p → p.dirties inp = true →
          inp'.persists = false := by
  constructor
  · intro hsave before inp between inp' rest hsplit p hp hdirt
    subst hsplit
    obtain ⟨p₀, hp₀, hrun⟩ := after_append.mp hrun
    obtain rfl : p₀ = p := Option.some.inj (hp₀.symm.trans hp)
    obtain ⟨e, he, hrun⟩ := after_cons.mp hrun
    obtain ⟨p₁, hp₁, hrun⟩ := after_append.mp hrun
    have hinp : inp ≠ .restart := fun h => hr (by simp [h])
    have hset : e.proc.node.dirty = true := by
      rcases dirty_of_step he hinp with ⟨-, heq⟩ | ⟨-, hnot, -⟩
      · rw [heq, hdirt, Bool.or_true]
      · rw [hdirt] at hnot
        cases hnot
    have hbetween : NeverSaves e.proc between := by
      intro pre q post hq p₂ hp₂
      refine hsave (before ++ inp :: pre) q (post ++ inp' :: rest) (by simp [hq]) p₂ ?_
      exact after_append.mpr ⟨p₀, hp₀, after_cons.mpr ⟨e, he, hp₂⟩⟩
    have hdirty := hbetween.dirty hset hp₁ (fun h => hr (by simp [h]))
    by_contra hpersists
    refine hsave (before ++ inp :: between) inp' rest (by simp) p₁ ?_ ⟨?_, hdirty⟩
    · exact after_append.mpr ⟨p₀, hp₀, after_cons.mpr ⟨e, he, hp₁⟩⟩
    · simpa using hpersists
  · rintro hcond before inp rest rfl p hp ⟨hpersists, hdirty⟩
    obtain ⟨pre, q, post, p₁, rfl, hp₁, hd⟩ :=
      exists_dirties rfl hp (fun h => hr (List.mem_append_left _ h)) hdirty
    have hnot := hcond pre q post inp rest (by simp) p₁ hp₁ hd
    rw [hpersists] at hnot
    cases hnot

/-- A store with term 5 and a vote for 2 that cannot be read: the first election of the node
    replaces them by term 1 and a vote for itself. -/
theorem unreadable_overwritten :
    ∃ p, (unreadable (0 : Fin 3) [1, 2] ⟨5, some 2, [], 0, 0⟩).after
        [.startElection, .persistElection true] = some p ∧
      ¬ NeverSaves (unreadable (0 : Fin 3) [1, 2] ⟨5, some 2, [], 0, 0⟩)
        [.startElection, .persistElection true] ∧
      p.disk.term = 1 ∧ p.disk.votedFor = some 0 := by
  refine ⟨_, rfl, fun h => ?_, rfl, rfl⟩
  exact h [.startElection] (.persistElection true) [] rfl _ rfl ⟨rfl, rfl⟩

/-- Heartbeats that bring nothing new, and a `Flush`. -/
theorem unreadable_kept_idle :
    NeverSaves (unreadable (0 : Fin 3) [1, 2] ⟨5, some 2, [], 0, 0⟩)
      [.appendEntries ⟨0, 1, 0, 0, [], 0⟩, .flush true] := by
  refine (unreadable_kept_iff 0 [1, 2] ⟨5, some 2, [], 0, 0⟩ _ _ rfl (by simp)).mpr ?_
  intro before inp between inp' rest hsplit p hp hdirt
  rcases before with - | ⟨c, before⟩
  · obtain ⟨rfl, -⟩ := List.cons.inj hsplit
    cases hp
    exact absurd hdirt (by decide)
  · have hlen := congrArg List.length hsplit
    simp only [List.length_cons, List.length_append, List.length_nil] at hlen
    omega

end Process

end KvStore.Raft
