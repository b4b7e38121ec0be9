import KvStore.Raft.Handlers
import Mathlib.Logic.Function.Iterate

/-!
# Calls of `replicateToPeer`

`replicateToPeer` (pkg/raft/leader.go:241) sends requests to one follower until it returns: it
probes at `nextIndex - 1`, walks back with a step that doubles after every rejection, gives up
when the step has reached `maxReplBackoff`, and turns to `installSnapshot` when `nextIndex` is
below the first entry that the leader keeps.

A `Link` is a leader and one follower that answers at once; nothing is lost and nothing else
happens. `Link.exchange` is one round of the loop, `Link.replicateToPeer` a whole call.

* `Link.round_of_exchange`: what one round does to the two nodes.
* `Link.calls_eq_rounds`: `k` calls are at least `k` rounds.
-/

namespace KvStore.Raft

open KvStore.Storage (Bytes)

variable {Id : Type}

namespace Node

/-- The node after a `persist` whose `Save` succeeds. -/
def saved (n : Node Id) : Node Id := { n with dirty := false }

theorem persist_saved (n : Node Id) (disk : RaftState Id) : (n.persist disk true).2.1 = n.saved := by
  unfold persist
  by_cases h : n.dirty = false
  · rw [if_pos h, saved, ← h]
  · rw [if_neg h]
    rfl

/-- `HandleAppendEntries` (pkg/raft/node.go:86) of a node whose store takes every save. -/
def serveAppend (n : Node Id) (req : AppendEntriesRequest Id) : Node Id × AppendEntriesResponse :=
  let r := n.handleAppendEntries req
  (if r.2.2 then r.1.saved else r.1, r.2.1)

/-- `HandleInstallSnapshot` (pkg/raft/snapshot.go:142) of a node whose store takes every save. -/
def serveSnapshot (n : Node Id) (req : InstallSnapshotRequest Id) :
    Node Id × InstallSnapshotResponse :=
  let r := n.handleInstallSnapshot req
  (if req.term < n.term then r.1 else r.1.saved, r.2.1)

end Node

/-! ## The walk back -/

/-- `nextIndex[peer]` and `backoff[peer]` of a `replicationState`. -/
@[ext]
structure Cursor where
  next : ℕ
  backoff : ℕ
  deriving DecidableEq, Repr

namespace Cursor

/-- `step` of the rejection branch (pkg/raft/leader.go:303). -/
def step (c : Cursor) : ℕ := if c.backoff = 0 then 1 else c.backoff

/-- What a rejection does to the cursor (pkg/raft/leader.go:302). -/
def rewind (c : Cursor) : Cursor :=
  { next := if c.next > c.step then c.next - c.step else 1
    backoff := if c.step < Node.maxReplBackoff then c.step * 2 else c.backoff }

/-- The `prevLogIndex` that is sent from the cursor. -/
def prev (c : Cursor) : ℕ := c.next - 1

theorem step_pos (c : Cursor) : 0 < c.step := by
  unfold step
  split <;> omega

theorem rewind_next_le (c : Cursor) : c.rewind.next ≤ max c.next 1 := by
  unfold rewind
  dsimp only
  split <;> omega

theorem rewind_next_lt {c : Cursor} (h : 1 < c.next) : c.rewind.next < c.next := by
  have := c.step_pos
  unfold rewind
  dsimp only
  split <;> omega

theorem prev_rewind_le (c : Cursor) : c.rewind.prev ≤ c.prev := by
  have := c.rewind_next_le
  unfold prev
  omega

/-- The walk goes down. -/
theorem prev_iterate_antitone (c : Cursor) : Antitone fun k => (rewind^[k] c).prev := by
  refine antitone_nat_of_succ_le fun k => ?_
  rw [Function.iterate_succ_apply']
  exact prev_rewind_le _

/-- The walk ends at the beginning of the log. -/
theorem exists_prev_eq_zero (c : Cursor) : ∃ k, (rewind^[k] c).prev = 0 := by
  induction hn : c.next using Nat.strongRecOn generalizing c with
  | ind n ih =>
    by_cases h : 1 < c.next
    · obtain ⟨k, hk⟩ := ih c.rewind.next (hn ▸ rewind_next_lt h) c.rewind rfl
      exact ⟨k + 1, hk⟩
    · exact ⟨0, by rw [Function.iterate_zero, id, prev]; omega⟩

end Cursor

variable [DecidableEq Id]

/-- The cursor of the leader `n` for `peer`. -/
def Node.cursor (n : Node Id) (peer : Id) : Cursor :=
  ⟨n.replState.nextIndex peer, n.replState.backoff peer⟩

/-! ## One call of `replicateToPeer` -/

/-- A leader and the peer that it replicates to. -/
structure Link (Id : Type) where
  leader : Node Id
  follower : Node Id

namespace Link

/-- `installSnapshot` (pkg/raft/snapshot.go:74) with the snapshot of the bridge: `lastApplied`,
    the term there, and `data`. -/
def installSnapshot (data : Bytes) (peer : Id) (l : Link Id) : Link Id × Bool :=
  if l.leader.role ≠ .leader then (l, false)
  else
    let n := l.leader.withRepl
    if n.replState.inFlight peer then ({ l with leader := n }, false)
    else
      let req := n.snapshotRequest n.lastApplied (n.logTermAt n.lastApplied) data
      let r := l.follower.serveSnapshot req
      (⟨(n.setInFlight peer true).handleSnapshotResponse peer req r.2, r.1⟩,
        decide (r.2.term = n.term ∧ r.2.success))

/-- One round of the loop of `replicateToPeer` (pkg/raft/leader.go:242): the result it returns,
    or `none` if it goes round again. -/
def exchange (data : Bytes) (peer : Id) (l : Link Id) : Link Id × Option Bool :=
  if l.leader.role ≠ .leader then (l, some false)
  else
    let n := l.leader.withRepl
    if n.replState.inFlight peer then ({ l with leader := n }, some false)
    else if n.nextFor peer < n.firstIndex then
      let r := installSnapshot data peer { l with leader := n }
      (r.1, some r.2)
    else
      let req := n.appendRequest peer
      let r := l.follower.serveAppend req
      (⟨(n.setInFlight peer true).handleAppendResponse peer req r.2, r.1⟩,
        if r.2.term ≠ n.term then some false
        else if r.2.success then some true
        else if (n.cursor peer).step < Node.maxReplBackoff then none
        -- `gaveUp`: retried on the next heartbeat tick
        else some false)

end Link

namespace Node

/-- What a node answers for: its term, its log with the base, and what it has applied. -/
def record (n : Node Id) : ℤ × List Entry × ℕ × ℤ × ℕ :=
  (n.term, n.log, n.lastIncludedIndex, n.lastIncludedTerm, n.lastApplied)

theorem cursor_rewind (n : Node Id) (peer : Id) :
    (n.rewind peer).cursor peer = (n.cursor peer).rewind := by
  ext
  · exact Function.update_self peer _ n.replState.nextIndex
  · change (if (n.cursor peer).step < maxReplBackoff then
      Function.update n.replState.backoff peer ((n.cursor peer).step * 2)
      else n.replState.backoff) peer = _
    unfold Cursor.rewind
    dsimp only
    split_ifs
    · exact Function.update_self peer _ n.replState.backoff
    · rfl

theorem replState_maybeCommit (n : Node Id) : n.maybeCommit.replState = n.replState := by
  unfold maybeCommit
  by_cases h : n.role ≠ .leader
  · rw [if_pos h]
    rfl
  · rw [if_neg h]
    rfl

theorem cursor_acknowledge (n : Node Id) (peer : Id) (matched : ℕ) :
    (n.acknowledge peer matched).cursor peer = ⟨max (n.cursor peer).next (matched + 1), 0⟩ := by
  unfold acknowledge cursor
  dsimp only
  rw [replState_maybeCommit]
  ext
  · exact Function.update_self peer _ n.replState.nextIndex
  · exact Function.update_self peer _ n.replState.backoff

theorem inFlight_acknowledge (n : Node Id) (peer : Id) (matched : ℕ) :
    (n.acknowledge peer matched).replState.inFlight = n.replState.inFlight := by
  unfold acknowledge
  dsimp only
  rw [replState_maybeCommit]
  rfl

/-! ## What one round does -/

omit [DecidableEq Id] in
theorem record_follow {n : Node Id} {term : ℤ} (h : term = n.term) (leader : Id) :
    (n.follow term leader).record = n.record := by
  unfold follow
  split_ifs
  · rw [h]
    rfl
  · rfl

omit [DecidableEq Id] in
theorem serveAppend_rejected {n : Node Id} {req : AppendEntriesRequest Id} (h : req.term = n.term)
    (hcheck : (n.follow req.term req.leaderID).checkPrevLog req.prevLogIndex req.prevLogTerm
      = false) :
    (n.serveAppend req).2 = ⟨n.term, false⟩ ∧ (n.serveAppend req).1.record = n.record := by
  have hrec := record_follow h req.leaderID
  have hn : n.handleAppendEntries req =
      (n.follow req.term req.leaderID, ⟨(n.follow req.term req.leaderID).term, false⟩, false) := by
    unfold handleAppendEntries
    dsimp only
    rw [if_neg (by omega), if_neg (by rw [hcheck]; decide)]
  unfold serveAppend
  rw [hn]
  refine ⟨?_, hrec⟩
  rw [show (n.follow req.term req.leaderID).term = n.term from congrArg Prod.fst hrec]

omit [DecidableEq Id] in
theorem serveAppend_accepted {n : Node Id} {req : AppendEntriesRequest Id} (h : req.term = n.term)
    (hcheck : (n.follow req.term req.leaderID).checkPrevLog req.prevLogIndex req.prevLogTerm) :
    (n.serveAppend req).2 = ⟨n.term, true⟩ ∧
      (n.serveAppend req).1.record =
        ((n.follow req.term req.leaderID).mergeEntries req).1.record := by
  have hterm : (n.follow req.term req.leaderID).term = n.term :=
    congrArg Prod.fst (record_follow h req.leaderID)
  rw [← hterm]
  unfold serveAppend handleAppendEntries
  dsimp only
  rw [if_neg (by omega), if_pos hcheck]
  constructor
  · split_ifs <;> rfl
  · split_ifs <;> rfl

omit [DecidableEq Id] in
theorem serveSnapshot_spec {n : Node Id} {req : InstallSnapshotRequest Id}
    (h : req.term = n.term) :
    (n.serveSnapshot req).2 = ⟨n.term, true⟩ ∧
      (n.serveSnapshot req).1.record = if req.lastIncludedIndex > n.lastApplied then
        ((n.follow req.term req.leaderID).adoptSnapshot req).record else n.record := by
  have hrec := record_follow h req.leaderID
  have hterm : (n.follow req.term req.leaderID).term = n.term := congrArg Prod.fst hrec
  have happ : (n.follow req.term req.leaderID).lastApplied = n.lastApplied :=
    congrArg (fun r => r.2.2.2.2) hrec
  unfold serveSnapshot handleInstallSnapshot
  dsimp only
  have hlt : ¬ req.term < n.term := by omega
  rw [if_neg hlt, if_neg hlt, happ]
  split_ifs
  · exact ⟨by rw [hterm], rfl⟩
  · exact ⟨by rw [hterm], hrec⟩

/-- The node leads with the record of `n₀`, and no request to `peer` is outstanding. -/
structure LeadsAs (peer : Id) (n n₀ : Node Id) : Prop where
  role : n.role = .leader
  idle : n.replState.inFlight peer = false
  record : n.record = n₀.record

/-- What a rejection does to the leader. -/
theorem LeadsAs.rejected {peer : Id} {n₀ n : Node Id} (h : n.LeadsAs peer n₀)
    (req : AppendEntriesRequest Id) :
    ((n.setInFlight peer true).handleAppendResponse peer req ⟨n.term, false⟩).LeadsAs peer n₀ ∧
      ((n.setInFlight peer true).handleAppendResponse peer req ⟨n.term, false⟩).cursor peer =
        (n.cursor peer).rewind := by
  have hresp : (n.setInFlight peer true).handleAppendResponse peer req ⟨n.term, false⟩ =
      ((n.setInFlight peer true).setInFlight peer false).rewind peer :=
    (if_neg (lt_irrefl n.term)).trans (if_neg (lt_irrefl n.term))
  rw [hresp, cursor_rewind]
  refine ⟨⟨h.role, ?_, h.record⟩, rfl⟩
  exact Function.update_self peer _ (n.setInFlight peer true).replState.inFlight

/-- What both kinds of success do to the leader. -/
theorem LeadsAs.acknowledged {peer : Id} {n₀ n : Node Id} (h : n.LeadsAs peer n₀) (matched : ℕ) :
    (((n.setInFlight peer true).setInFlight peer false).acknowledge peer matched).LeadsAs peer n₀ ∧
      (((n.setInFlight peer true).setInFlight peer false).acknowledge peer matched).cursor peer =
        ⟨max (n.cursor peer).next (matched + 1), 0⟩ := by
  rw [cursor_acknowledge]
  refine ⟨⟨h.role, ?_, h.record⟩, rfl⟩
  rw [inFlight_acknowledge]
  exact Function.update_self peer _ (n.setInFlight peer true).replState.inFlight

theorem withRepl_withRepl (n : Node Id) : n.withRepl.withRepl = n.withRepl := rfl

/-- Reading the replication state creates it. -/
theorem LeadsAs.withRepl {peer : Id} {n₀ n : Node Id} (h : n.LeadsAs peer n₀) :
    n.withRepl.LeadsAs peer n₀ := ⟨h.role, h.idle, h.record⟩

end Node

namespace Link

/-- What one round of an idle leader does to the link. -/
inductive Round (data : Bytes) (peer : Id) (l l' : Link Id) : Prop
  | rejected (hfirst : l.leader.firstIndex ≤ l.leader.nextFor peer)
      (hcheck : (l.follower.follow l.leader.term l.leader.id).checkPrevLog
        (l.leader.appendRequest peer).prevLogIndex (l.leader.appendRequest peer).prevLogTerm = false)
      (hcursor : l'.leader.cursor peer = (l.leader.cursor peer).rewind)
      (hrecord : l'.follower.record = l.follower.record)
  | accepted (hfirst : l.leader.firstIndex ≤ l.leader.nextFor peer)
      (hcheck : (l.follower.follow l.leader.term l.leader.id).checkPrevLog
        (l.leader.appendRequest peer).prevLogIndex (l.leader.appendRequest peer).prevLogTerm = true)
      (hrecord : l'.follower.record =
        ((l.follower.follow l.leader.term l.leader.id).mergeEntries
          (l.leader.appendRequest peer)).1.record)
  | ignored (hfirst : l.leader.nextFor peer < l.leader.firstIndex)
      (hle : l.leader.lastApplied ≤ l.follower.lastApplied)
      (hcursor : l'.leader.cursor peer =
        ⟨max (l.leader.cursor peer).next (l.leader.lastApplied + 1), 0⟩)
      (hrecord : l'.follower.record = l.follower.record)
  | installed (hfirst : l.leader.nextFor peer < l.leader.firstIndex)
      (hlt : l.follower.lastApplied < l.leader.lastApplied)
      (hcursor : l'.leader.cursor peer =
        ⟨max (l.leader.cursor peer).next (l.leader.lastApplied + 1), 0⟩)
      (hrecord : l'.follower.record =
        ((l.follower.follow l.leader.term l.leader.id).adoptSnapshot
          (l.leader.snapshotRequest l.leader.lastApplied
            (l.leader.logTermAt l.leader.lastApplied) data)).record)

theorem exchange_snapshot {n₀ : Node Id} {peer : Id} {l : Link Id} (data : Bytes)
    (h : l.leader.LeadsAs peer n₀) (hfirst : l.leader.nextFor peer < l.leader.firstIndex)
    {req : InstallSnapshotRequest Id} (hreq : req = l.leader.snapshotRequest l.leader.lastApplied
      (l.leader.logTermAt l.leader.lastApplied) data) :
    (l.exchange data peer).1 =
      ⟨(l.leader.withRepl.setInFlight peer true).handleSnapshotResponse peer req
        (l.follower.serveSnapshot req).2, (l.follower.serveSnapshot req).1⟩ := by
  have hidle : ¬ l.leader.withRepl.replState.inFlight peer = true := by
    rw [Bool.not_eq_true]
    exact h.idle
  have hfirst' : l.leader.withRepl.nextFor peer < l.leader.withRepl.firstIndex := hfirst
  subst hreq
  unfold exchange installSnapshot
  dsimp only
  rw [Node.withRepl_withRepl, if_neg (not_not.mpr h.role), if_neg hidle, if_pos hfirst',
    if_neg (not_not.mpr h.withRepl.role), if_neg hidle]
  rfl

theorem exchange_append {n₀ : Node Id} {peer : Id} {l : Link Id} (data : Bytes)
    (h : l.leader.LeadsAs peer n₀) (hfirst : l.leader.firstIndex ≤ l.leader.nextFor peer)
    {req : AppendEntriesRequest Id} (hreq : req = l.leader.appendRequest peer) :
    (l.exchange data peer).1 =
      ⟨(l.leader.withRepl.setInFlight peer true).handleAppendResponse peer req
        (l.follower.serveAppend req).2, (l.follower.serveAppend req).1⟩ := by
  have hidle : ¬ l.leader.withRepl.replState.inFlight peer = true := by
    rw [Bool.not_eq_true]
    exact h.idle
  have hfirst' : ¬ l.leader.withRepl.nextFor peer < l.leader.withRepl.firstIndex :=
    Nat.not_lt.mpr hfirst
  subst hreq
  unfold exchange
  dsimp only
  rw [if_neg (not_not.mpr h.role), if_neg hidle, if_neg hfirst']
  rfl

/-- One round, and the leader goes on leading as before. -/
theorem round_of_exchange {n₀ : Node Id} {peer : Id} {l : Link Id} (data : Bytes)
    (h : l.leader.LeadsAs peer n₀) (hterm : l.follower.term = l.leader.term) :
    (l.exchange data peer).1.leader.LeadsAs peer n₀ ∧
      Round data peer l (l.exchange data peer).1 := by
  by_cases hfirst : l.leader.nextFor peer < l.leader.firstIndex
  · -- the snapshot of the bridge
    obtain ⟨req, hreq⟩ : ∃ req, req = l.leader.snapshotRequest l.leader.lastApplied
      (l.leader.logTermAt l.leader.lastApplied) data := ⟨_, rfl⟩
    have hreqterm : req.term = l.follower.term := by rw [hreq, hterm]; rfl
    obtain ⟨hresp, hrecord⟩ := Node.serveSnapshot_spec hreqterm
    have hleader : (l.leader.withRepl.setInFlight peer true).handleSnapshotResponse peer req
        ⟨l.leader.term, true⟩ = ((l.leader.withRepl.setInFlight peer true).setInFlight peer
          false).acknowledge peer req.lastIncludedIndex.toNat :=
      (if_neg (lt_irrefl l.leader.term)).trans (if_neg (by simp [Node.setInFlight, Node.withRepl]))
    rw [exchange_snapshot data h hfirst hreq, hresp, hterm, hleader]
    obtain ⟨hleads, hcursor⟩ := h.withRepl.acknowledged req.lastIncludedIndex.toNat
    refine ⟨hleads, ?_⟩
    have hidx : req.lastIncludedIndex = l.leader.lastApplied := by rw [hreq]; rfl
    have hlid : req.leaderID = l.leader.id := by rw [hreq]; rfl
    rw [hidx, Int.toNat_natCast] at hcursor
    rw [hidx, hreqterm, hterm, hlid] at hrecord
    split_ifs at hrecord with hlt
    · refine .installed hfirst (by omega) ?_ ?_
      · rw [hidx]
        exact hcursor
      · rw [← hreq]
        exact hrecord
    · refine .ignored hfirst (by omega) ?_ hrecord
      rw [hidx]
      exact hcursor
  · have hge : l.leader.firstIndex ≤ l.leader.nextFor peer := Nat.le_of_not_lt hfirst
    obtain ⟨req, hreq⟩ : ∃ req, req = l.leader.appendRequest peer := ⟨_, rfl⟩
    have hreqterm : req.term = l.follower.term := by rw [hreq, hterm]; rfl
    have hfollow : l.follower.follow req.term req.leaderID =
        l.follower.follow l.leader.term l.leader.id := by rw [hreq]; rfl
    rw [exchange_append data h hge hreq]
    cases hcheck : (l.follower.follow req.term req.leaderID).checkPrevLog req.prevLogIndex
        req.prevLogTerm with
    | false =>
      obtain ⟨hresp, hrecord⟩ := Node.serveAppend_rejected hreqterm hcheck
      rw [hresp, hterm]
      obtain ⟨hleads, hcursor⟩ := h.withRepl.rejected req
      rw [hfollow, hreq] at hcheck
      exact ⟨hleads, .rejected hge hcheck hcursor hrecord⟩
    | true =>
      obtain ⟨hresp, hrecord⟩ := Node.serveAppend_accepted hreqterm hcheck
      have hleader : (l.leader.withRepl.setInFlight peer true).handleAppendResponse peer req
          ⟨l.leader.term, true⟩ = ((l.leader.withRepl.setInFlight peer true).setInFlight peer
            false).acknowledge peer (req.prevLogIndex + req.entries.length).toNat :=
        (if_neg (lt_irrefl l.leader.term)).trans (if_neg (lt_irrefl l.leader.term))
      rw [hresp, hterm, hleader]
      rw [hfollow, hreq] at hcheck
      rw [hfollow] at hrecord
      refine ⟨(h.withRepl.acknowledged _).1, .accepted hge hcheck ?_⟩
      rw [← hreq]
      exact hrecord

/-! ## Calls as iterated rounds -/

/-- The loop goes round again only after a rejection that doubles the backoff. -/
theorem backoff_of_again {data : Bytes} {peer : Id} {l l' : Link Id}
    (h : l.exchange data peer = (l', none)) :
    Node.maxReplBackoff - (l'.leader.cursor peer).backoff <
      Node.maxReplBackoff - (l.leader.cursor peer).backoff := by
  unfold exchange at h
  dsimp only at h
  split_ifs at h with hrole hidle hfirst hterm hok hstep <;> simp only [Prod.mk.injEq,
    reduceCtorEq, and_false, and_true] at h
  have hleads : l.leader.withRepl.LeadsAs peer l.leader.withRepl :=
    ⟨not_not.mp hrole, Bool.eq_false_iff.mpr hidle, rfl⟩
  have hresp : (l.follower.serveAppend (l.leader.withRepl.appendRequest peer)).2 =
      ⟨l.leader.withRepl.term, false⟩ := by
    rw [← not_not.mp hterm, ← Bool.eq_false_iff.mpr hok]
  have hcursor : (l'.leader.cursor peer) = (l.leader.cursor peer).rewind := by
    rw [← h, hresp]
    exact (hleads.rejected _).2
  have hback : (l.leader.cursor peer).backoff ≤ (l.leader.cursor peer).step := by
    unfold Cursor.step
    split <;> omega
  have hlt : (l.leader.cursor peer).step < Node.maxReplBackoff := hstep
  have hpos := (l.leader.cursor peer).step_pos
  rw [hcursor]
  unfold Cursor.rewind
  dsimp only
  rw [if_pos hlt]
  omega

/-- `replicateToPeer` (pkg/raft/leader.go:241) between a leader and a peer that answers. -/
def replicateToPeer (data : Bytes) (peer : Id) (l : Link Id) : Link Id × Bool :=
  match _h : l.exchange data peer with
  | (l', some acked) => (l', acked)
  | (l', none) => replicateToPeer data peer l'
termination_by Node.maxReplBackoff - (l.leader.cursor peer).backoff
decreasing_by exact backoff_of_again _h

/-- The link after a call of `replicateToPeer`. -/
def call (data : Bytes) (peer : Id) (l : Link Id) : Link Id := (l.replicateToPeer data peer).1

/-- The link after one round of a call. -/
def round (data : Bytes) (peer : Id) (l : Link Id) : Link Id := (l.exchange data peer).1

/-- A call consists of at least one round. -/
theorem call_eq_rounds (data : Bytes) (peer : Id) (l : Link Id) :
    ∃ m, l.call data peer = (round data peer)^[m + 1] l := by
  unfold call
  fun_induction replicateToPeer data peer l with
  | case1 l l' acked h => exact ⟨0, by rw [zero_add, Function.iterate_one, round, h]⟩
  | case2 l l' h ih =>
    obtain ⟨m, hm⟩ := ih
    refine ⟨m + 1, ?_⟩
    rw [hm, Function.iterate_succ_apply _ (m + 1), round, h]

/-- Successive calls are rounds, at least as many. -/
theorem calls_eq_rounds (data : Bytes) (peer : Id) (k : ℕ) (l : Link Id) :
    ∃ m, k ≤ m ∧ (call data peer)^[k] l = (round data peer)^[m] l := by
  induction k generalizing l with
  | zero => exact ⟨0, le_rfl, rfl⟩
  | succ k ih =>
    obtain ⟨m, hm⟩ := call_eq_rounds data peer l
    obtain ⟨m', hle, hm'⟩ := ih (l.call data peer)
    refine ⟨m' + (m + 1), by omega, ?_⟩
    rw [Function.iterate_succ_apply, hm', hm, ← Function.iterate_add_apply]

end Link

end KvStore.Raft
