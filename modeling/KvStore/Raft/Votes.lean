import KvStore.Raft.Durable
import KvStore.Raft.Inversion

/-!
# Votes across one critical section

`VoteMove n n'` lists everything one critical section can do to the term, the
vote and the role of a node. It holds for every section (`Process.voteMove`)
except those in which `becomeFollower` is called at the unchanged term and
clears a vote that is not the node's own candidacy: these are the sections with
`Process.forgetsVote`.
-/

namespace KvStore.Raft

variable {Id : Type}

namespace Node

/-- The term, the vote and the role. -/
def ballot (n : Node Id) : ℤ × Option Id × Role := (n.term, n.votedFor, n.role)

/-! ## Sections that leave the ballot alone -/

@[simp] theorem setInFlight_ballot [DecidableEq Id] (n : Node Id) (q : Id) (b : Bool) :
    (n.setInFlight q b).ballot = n.ballot := rfl

@[simp] theorem rewind_ballot [DecidableEq Id] (n : Node Id) (q : Id) :
    (n.rewind q).ballot = n.ballot := rfl

@[simp] theorem acknowledge_ballot [DecidableEq Id] (n : Node Id) (q : Id) (k : ℕ) :
    (n.acknowledge q k).ballot = n.ballot := rfl

@[simp] theorem withRepl_ballot [DecidableEq Id] (n : Node Id) : n.withRepl.ballot = n.ballot := rfl

@[simp] theorem markApplied_ballot (n : Node Id) (k : ℕ) : (n.markApplied k).ballot = n.ballot :=
  rfl

@[simp] theorem adoptSnapshot_ballot (n : Node Id) (req : InstallSnapshotRequest Id) :
    (n.adoptSnapshot req).ballot = n.ballot := rfl

@[simp] theorem advanceCommit_ballot (n : Node Id) (k : ℤ) : (n.advanceCommit k).ballot = n.ballot :=
  rfl

@[simp] theorem appendEntry_ballot (n : Node Id) (cmd : Storage.Command) :
    (n.appendEntry cmd).ballot = n.ballot := by
  unfold appendEntry; dsimp only; split <;> rfl

@[simp] theorem compactLog_ballot (n : Node Id) (k : ℕ) (t : ℤ) :
    (n.compactLog k t).ballot = n.ballot := by
  unfold compactLog; split <;> rfl

@[simp] theorem persist_ballot (n : Node Id) (d : RaftState Id) (saved : Bool) :
    (n.persist d saved).2.1.ballot = n.ballot := by
  unfold persist; split_ifs <;> rfl

@[simp] theorem mergeEntries_ballot (n : Node Id) (req : AppendEntriesRequest Id) :
    (n.mergeEntries req).1.ballot = n.ballot := rfl

/-- An `AppendEntries` of a current term touches the ballot only through `follow`. -/
theorem handleAppendEntries_ballot {n : Node Id} {req : AppendEntriesRequest Id}
    (h : ¬ req.term < n.term) :
    (n.handleAppendEntries req).1.ballot = (n.follow req.term req.leaderID).ballot := by
  simp only [handleAppendEntries, h, ite_false]
  split_ifs <;> rfl

theorem handleInstallSnapshot_ballot {n : Node Id} {req : InstallSnapshotRequest Id}
    (h : ¬ req.term < n.term) :
    (n.handleInstallSnapshot req).1.ballot = (n.follow req.term req.leaderID).ballot := by
  simp only [handleInstallSnapshot, h, ite_false]
  split_ifs <;> rfl

/-- Who follows a leader of a term that is not lower is in that term. -/
theorem follow_term {n : Node Id} {t : ℤ} (h : ¬ t < n.term) (l : Id) : (n.follow t l).term = t := by
  unfold follow
  split_ifs with hf
  · rfl
  · push Not at hf
    exact le_antisymm (not_lt.mp h) hf.1

end Node

/-! ## What a section may do -/

/-- Everything one critical section can do to the term, the vote and the role. -/
inductive VoteMove (n n' : Node Id) : Prop
  /-- Nothing. -/
  | quiet (h : n'.ballot = n.ballot)
  /-- A higher term is adopted or opened. -/
  | raise (ht : n.term < n'.term) (hc : n'.role = .candidate → n'.votedFor = some n.id)
  /-- A vote of the current term is granted. -/
  | grant (x : Id) (ht : n'.term = n.term) (hv : n.votedFor = none ∨ n.votedFor = some x)
      (hv' : n'.votedFor = some x) (hr : n'.role = n.role)
  /-- The node gives up its own candidacy, or had no vote to lose. -/
  | quit (ht : n'.term = n.term) (hr : n'.role = .follower) (hv : n'.votedFor = none)
      (hok : n.role = .candidate ∨ n.votedFor = none)
  /-- A candidate becomes leader. -/
  | elected (ht : n'.term = n.term) (hv : n'.votedFor = n.votedFor) (hr : n.role = .candidate)
      (hr' : n'.role = .leader)

namespace VoteMove

variable {n n' : Node Id}

theorem term_le (h : VoteMove n n') : n.term ≤ n'.term := by
  cases h with
  | quiet h => exact le_of_eq (congrArg Prod.fst h).symm
  | raise ht _ => exact ht.le
  | grant x ht _ _ _ => exact ht.ge
  | quit ht _ _ _ => exact ht.ge
  | elected ht _ _ _ => exact ht.ge

/-- `follow` at a term that is not lower than the node's. -/
theorem of_follow {t : ℤ} {l : Id} (hle : ¬ t < n.term)
    (hok : t = n.term → n.role ≠ .follower → n.role = .candidate ∨ n.votedFor = none)
    (hb : n'.ballot = (n.follow t l).ballot) : VoteMove n n' := by
  unfold Node.follow at hb
  split_ifs at hb with hf
  · simp only [Node.ballot, Node.becomeFollower, Prod.mk.injEq] at hb
    obtain ⟨h1, h2, h3⟩ := hb
    rcases lt_or_eq_of_le (not_lt.mp hle) with hlt | heq
    · exact .raise (by omega) (by simp [h3])
    · refine .quit (by omega) h3 h2 (hok heq.symm ?_)
      rcases hf with hf | hf
      · omega
      · exact hf
  · exact .quiet hb

end VoteMove

namespace Node

theorem adoptTerm_voteMove (n : Node Id) (t : ℤ) : VoteMove n (n.adoptTerm t) := by
  unfold adoptTerm
  split_ifs with h
  · exact .raise h (by simp [becomeFollower])
  · exact .quiet rfl

variable [DecidableEq Id]

theorem handleRequestVote_voteMove (n : Node Id) (req : VoteRequest Id) :
    VoteMove n (n.handleRequestVote req).1 := by
  unfold handleRequestVote
  split_ifs with ht
  · exact .quiet rfl
  · dsimp only
    split_ifs with hg
    · unfold adoptTerm at hg ⊢
      split_ifs at hg ⊢ with hgt
      · exact .raise hgt (by simp [becomeFollower])
      · simp only [grants, decide_eq_true_eq, Bool.decide_and, Bool.and_eq_true] at hg
        exact .grant req.candidateID rfl hg.1 rfl rfl
    · exact adoptTerm_voteMove n req.term

theorem handleAppendResponse_voteMove (n : Node Id) (q : Id) (req : AppendEntriesRequest Id)
    (resp : AppendEntriesResponse) : VoteMove n (n.handleAppendResponse q req resp) := by
  unfold handleAppendResponse
  dsimp only
  split_ifs with h1
  · exact .raise h1 (by simp [becomeFollower])
  all_goals exact .quiet rfl

theorem handleSnapshotResponse_voteMove (n : Node Id) (q : Id) (req : InstallSnapshotRequest Id)
    (resp : InstallSnapshotResponse) : VoteMove n (n.handleSnapshotResponse q req resp) := by
  unfold handleSnapshotResponse
  dsimp only
  split_ifs with h1
  · exact .raise h1 (by simp [becomeFollower])
  all_goals exact .quiet rfl

end Node

namespace Process

/-- The section calls `becomeFollower` with the node's current term
    (pkg/raft/election.go:60, pkg/raft/election.go:131, pkg/raft/node.go:95,
    pkg/raft/snapshot.go:151). -/
def stepsDownInPlace (p : Process Id) : Input Id → Bool
  | .stepDown => true
  | .endElection => p.election.all fun e =>
      ¬ (e.votes ≥ majority p.node.peers ∧ p.node.role = .candidate ∧ p.node.term = e.req.term)
  | .appendEntries req => req.term = p.node.term ∧ p.node.role ≠ .follower
  | .installSnapshot req => req.term = p.node.term ∧ p.node.role ≠ .follower
  | _ => false

/-- The section clears a vote of the current term although the node is not a
    candidate: it has led in this term, or voted for another node. -/
def forgetsVote (p : Process Id) (inp : Input Id) : Prop :=
  p.stepsDownInPlace inp = true ∧ p.node.role ≠ .candidate ∧ p.node.votedFor ≠ none

instance (p : Process Id) (inp : Input Id) : Decidable (p.forgetsVote inp) :=
  inferInstanceAs (Decidable (_ ∧ _))

theorem persist_node_ballot (p : Process Id) (saved : Bool) :
    (p.persist saved).2.node.ballot = p.node.ballot := Node.persist_ballot _ _ _

variable [DecidableEq Id]

/-- Every section that forgets no vote makes a `VoteMove`. -/
theorem voteMove {p : Process Id} {inp : Input Id} {e : Effect Id} (hstep : p.step inp = some e)
    (hr : inp ≠ .restart) (hok : ¬ p.forgetsVote inp) : VoteMove p.node e.proc.node := by
  cases inp with
  | restart => exact absurd rfl hr
  | startElection =>
    simp only [step] at hstep
    split_ifs at hstep
    cases hstep
    exact .raise (by simp [Node.becomeCandidate]) (fun _ => rfl)
  | stepDown =>
    simp only [step] at hstep
    split_ifs at hstep with hg
    cases hstep
    refine .quit rfl rfl rfl (Or.inr ?_)
    by_contra hv
    exact hok ⟨rfl, by simp [hg.1], hv⟩
  | endElection =>
    simp only [step] at hstep
    split at hstep <;> try contradiction
    rename_i el hel
    split_ifs at hstep
    cases hstep
    unfold endElection
    split_ifs with hw
    · exact .elected rfl rfl hw.2.1 rfl
    · refine .quit rfl rfl rfl ?_
      by_contra hcon
      push Not at hcon
      exact hok ⟨by rw [stepsDownInPlace, hel]; exact decide_eq_true hw, hcon.1, hcon.2⟩
  | voteResponse q req resp =>
    simp only [step] at hstep
    split at hstep <;> try contradiction
    split_ifs at hstep
    cases hstep
    unfold voteResponse
    split
    · next ht => exact .raise ht (by simp [Node.becomeFollower])
    · exact .quiet rfl
  | requestVote req =>
    rw [requestVote_node hstep]
    exact Node.handleRequestVote_voteMove _ _
  | appendEntries req =>
    rw [appendEntries_node hstep]
    by_cases ht : req.term < p.node.term
    · exact .quiet (by simp [Node.handleAppendEntries, ht])
    · refine .of_follow ht (fun heq hf => ?_) (Node.handleAppendEntries_ballot ht)
      by_contra hcon
      push Not at hcon
      exact hok ⟨decide_eq_true ⟨heq, hf⟩, hcon⟩
  | installSnapshot req =>
    rw [installSnapshot_node hstep]
    by_cases ht : req.term < p.node.term
    · exact .quiet (by simp [Node.handleInstallSnapshot, ht])
    · refine .of_follow ht (fun heq hf => ?_) (Node.handleInstallSnapshot_ballot ht)
      by_contra hcon
      push Not at hcon
      exact hok ⟨decide_eq_true ⟨heq, hf⟩, hcon⟩
  | appendResponse q req resp =>
    rw [appendResponse_node hstep]
    exact Node.handleAppendResponse_voteMove _ _ _ _
  | snapshotResponse q req resp =>
    rw [snapshotResponse_node hstep]
    exact Node.handleSnapshotResponse_voteMove _ _ _ _
  | _ =>
    refine .quiet ?_
    simp only [step] at hstep
    repeat' split at hstep
    all_goals (try cases hstep)
    all_goals first
      | rfl
      | exact persist_node_ballot _ _
      | simp

/-! ## Elections, pending votes and what is sent -/

/-- Where an election that is in progress after a section comes from. -/
inductive ElectionMove (p : Process Id) (inp : Input Id) : Election Id → Prop
  | start (h : inp = .startElection) :
      ElectionMove p inp ⟨p.node.becomeCandidate.voteRequest, p.node.peers, 1, false⟩
  | keep (el : Election Id) (h : p.election = some el) : ElectionMove p inp el
  | launch (el : Election Id) (saved : Bool) (h : p.election = some el)
      (hi : inp = .persistElection saved) (hp : (p.persist saved).1 = true) :
      ElectionMove p inp { el with campaigning := true }
  | count (el : Election Id) (q : Id) (resp : VoteResponse) (h : p.election = some el)
      (hi : inp = .voteResponse q el.req resp) (hq : q ∈ el.waiting) :
      ElectionMove p inp { el with
        waiting := el.waiting.erase q
        votes := if resp.voteGranted then el.votes + 1 else el.votes }
  | drop (el : Election Id) (q : Id) (h : p.election = some el) :
      ElectionMove p inp { el with waiting := el.waiting.erase q }

theorem electionMove {p : Process Id} {inp : Input Id} {e : Effect Id}
    (hstep : p.step inp = some e) {el' : Election Id} (h' : e.proc.election = some el') :
    ElectionMove p inp el' := by
  cases inp with
  | startElection =>
    simp only [step] at hstep
    split_ifs at hstep
    cases hstep
    cases h'
    exact .start rfl
  | persistElection saved =>
    simp only [step] at hstep
    split at hstep <;> try contradiction
    next el hel =>
    split_ifs at hstep with h1 h2 <;> cases hstep <;> cases h'
    exact .launch el saved hel rfl h2
  | voteResponse q req resp =>
    simp only [step] at hstep
    split at hstep <;> try contradiction
    next el hel =>
    split at hstep <;> try contradiction
    next hg =>
    cases hstep
    unfold voteResponse at h'
    split at h' <;> cases h'
    obtain ⟨_, hq, rfl, _⟩ := hg
    exact .count el q resp hel rfl hq
  | voteError q =>
    simp only [step] at hstep
    split at hstep <;> try contradiction
    next el hel =>
    split at hstep <;> try contradiction
    cases hstep
    cases h'
    exact .drop el q hel
  | endElection =>
    simp only [step] at hstep
    split at hstep <;> try contradiction
    split at hstep <;> try contradiction
    cases hstep
    unfold endElection at h'
    split at h' <;> cases h'
  | restart =>
    simp only [step, Option.some.injEq] at hstep
    rw [← hstep] at h'
    cases h'
  | _ =>
    refine .keep el' ?_
    simp only [step] at hstep
    repeat' split at hstep
    all_goals try cases hstep
    all_goals exact h'

theorem persistVote_proc {p : Process Id} {req : VoteRequest Id} {resp : VoteResponse}
    {saved : Bool} {e : Effect Id} (hstep : p.step (.persistVote req resp saved) = some e) :
    e.proc.node = (p.persist saved).2.node ∧ e.proc.disk = (p.persist saved).2.disk := by
  simp only [step] at hstep
  split at hstep <;> cases hstep
  exact ⟨rfl, rfl⟩

theorem endElection_won {p : Process Id} {e : Effect Id} (hstep : p.step .endElection = some e)
    {el : Election Id} (h : p.election = some el) (hv : majority p.node.peers ≤ el.votes)
    (hr : p.node.role = .candidate) (ht : p.node.term = el.req.term) :
    e.proc.node = p.node.becomeLeader ∧ e.proc.disk = p.disk := by
  simp only [step, h] at hstep
  split at hstep <;> cases hstep
  unfold endElection
  rw [if_pos ⟨hv, hr, ht⟩]
  exact ⟨rfl, rfl⟩

end Process

namespace Node

variable [DecidableEq Id]

/-- A granted vote is recorded in the term of the request. -/
theorem handleRequestVote_granted {n : Node Id} {req : VoteRequest Id}
    (h : (n.handleRequestVote req).2.voteGranted = true) :
    (n.handleRequestVote req).1.term = req.term ∧
      (n.handleRequestVote req).1.votedFor = some req.candidateID := by
  unfold handleRequestVote at h ⊢
  split_ifs at h ⊢ with ht
  dsimp only at h ⊢
  split_ifs at h ⊢
  refine ⟨?_, rfl⟩
  unfold adoptTerm
  split_ifs with hgt
  · rfl
  · dsimp only; omega

end Node

end KvStore.Raft
