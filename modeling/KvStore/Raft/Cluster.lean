import KvStore.Raft.Process

/-!
# A cluster of raft processes

Processes exchange messages over a network that never forgets: a message once
sent may be delivered at any later time, any number of times, in any order, or
never. A run is a list of critical sections, each executed by one member.

`Reachable cfg ok c` says that `c` is the state after some run of the cluster
`cfg` all of whose steps meet the condition `ok`.
-/

namespace KvStore.Raft

variable {Id : Type} [DecidableEq Id]

/-- A cluster configuration: the members, and for each of them the `peers` it was
    started with, in any order. -/
structure Config (Id : Type) where
  members : List Id
  peers : Id → List Id
  nodup : members.Nodup
  peers_perm : ∀ i ∈ members, (i :: peers i).Perm members

/-- A cluster of three members. -/
def Config.three : Config (Fin 3) where
  members := [0, 1, 2]
  peers := fun i => [0, 1, 2].filter (· ≠ i)
  nodup := by decide
  peers_perm := by decide

/-- The state of a cluster: its processes, every message ever sent, and what has
    been observed so far. -/
structure Cluster (Id : Type) where
  proc : Id → Process Id
  net : List (Msg Id)
  events : List (Event Id)

namespace Cluster

/-- All members have just started. -/
def init (cfg : Config Id) : Cluster Id :=
  { proc := fun i => Process.init i (cfg.peers i), net := [], events := [] }

/-- The cluster after the process `i` has executed a section with effect `e`. -/
def update (c : Cluster Id) (i : Id) (e : Process.Effect Id) : Cluster Id :=
  { proc := Function.update c.proc i e.proc, net := c.net ++ e.sent, events := c.events ++ e.events }

/-- The member `i` executes the section `inp`; a message it consumes must have
    been sent. -/
def step (cfg : Config Id) (c : Cluster Id) (i : Id) (inp : Input Id) : Option (Cluster Id) :=
  if i ∈ cfg.members ∧ ∀ m ∈ inp.msg i, m ∈ c.net then
    ((c.proc i).step inp).map (c.update i)
  else none

/-- The state after a run all of whose steps meet `ok` in the state before them. -/
def run (cfg : Config Id) (ok : Cluster Id → Id → Input Id → Prop)
    [∀ c i inp, Decidable (ok c i inp)] (c : Cluster Id) :
    List (Id × Input Id) → Option (Cluster Id)
  | [] => some c
  | (i, inp) :: rest =>
    if ok c i inp then (c.step cfg i inp).bind fun c' => c'.run cfg ok rest else none

/-- `c` is reached by a run whose steps all meet `ok` in the state before them. -/
inductive Reachable (cfg : Config Id) (ok : Cluster Id → Id → Input Id → Prop) :
    Cluster Id → Prop
  | init : Reachable cfg ok (init cfg)
  | step {c c' : Cluster Id} {i : Id} {inp : Input Id} :
      Reachable cfg ok c → ok c i inp → c.step cfg i inp = some c' → Reachable cfg ok c'

theorem step_eq_some {cfg : Config Id} {c c' : Cluster Id} {i : Id} {inp : Input Id}
    (h : c.step cfg i inp = some c') :
    i ∈ cfg.members ∧ (∀ m, inp.msg i = some m → m ∈ c.net) ∧
      ∃ e, (c.proc i).step inp = some e ∧ c' = c.update i e := by
  unfold step at h
  split_ifs at h with hg
  obtain ⟨e, he, rfl⟩ := Option.map_eq_some_iff.mp h
  exact ⟨hg.1, fun m hm => hg.2 m (by simp [hm]), e, he, rfl⟩

@[simp] theorem update_proc_self (c : Cluster Id) (i : Id) (e : Process.Effect Id) :
    (c.update i e).proc i = e.proc := by simp [update]

theorem update_proc_ne (c : Cluster Id) {i j : Id} (e : Process.Effect Id) (h : j ≠ i) :
    (c.update i e).proc j = c.proc j := by simp [update, h]

@[simp] theorem mem_update_net (c : Cluster Id) (i : Id) (e : Process.Effect Id) (m : Msg Id) :
    m ∈ (c.update i e).net ↔ m ∈ c.net ∨ m ∈ e.sent := by simp [update]

@[simp] theorem mem_update_events (c : Cluster Id) (i : Id) (e : Process.Effect Id)
    (ev : Event Id) : ev ∈ (c.update i e).events ↔ ev ∈ c.events ∨ ev ∈ e.events := by
  simp [update]

/-- The invariant rule: what holds initially and survives every step that meets
    `ok` holds in every reachable state. -/
theorem Reachable.invariant {cfg : Config Id} {ok : Cluster Id → Id → Input Id → Prop}
    {Inv : Cluster Id → Prop} (h0 : Inv (Cluster.init cfg))
    (hs : ∀ c i inp e, Inv c → ok c i inp → i ∈ cfg.members →
      (∀ m, inp.msg i = some m → m ∈ c.net) → (c.proc i).step inp = some e → Inv (c.update i e))
    {c : Cluster Id} (h : Reachable cfg ok c) : Inv c := by
  induction h with
  | init => exact h0
  | step _ hok hstep ih =>
    obtain ⟨hi, hm, e, he, rfl⟩ := step_eq_some hstep
    exact hs _ _ _ _ ih hok hi hm he

theorem Reachable.mono {cfg : Config Id} {ok ok' : Cluster Id → Id → Input Id → Prop}
    (hok : ∀ c i inp, ok c i inp → ok' c i inp) {c : Cluster Id} (h : Reachable cfg ok c) :
    Reachable cfg ok' c := by
  induction h with
  | init => exact .init
  | step _ ho hs ih => exact .step ih (hok _ _ _ ho) hs

/-- A run from a reachable state ends in a reachable state. -/
theorem Reachable.run {cfg : Config Id} {ok : Cluster Id → Id → Input Id → Prop}
    [∀ c i inp, Decidable (ok c i inp)] {c c' : Cluster Id} (h : Reachable cfg ok c) :
    ∀ {acts : List (Id × Input Id)}, c.run cfg ok acts = some c' → Reachable cfg ok c' := by
  intro acts
  induction acts generalizing c with
  | nil => intro hr; cases hr; exact h
  | cons a rest ih =>
    intro hr
    simp only [Cluster.run] at hr
    split_ifs at hr with ho
    obtain ⟨d, hd, hr⟩ := Option.bind_eq_some_iff.mp hr
    exact ih (.step h ho hd) hr

/-- What a run on fixed inputs shows is shown by a reachable state. -/
theorem Reachable.of_run {cfg : Config Id} {ok : Cluster Id → Id → Input Id → Prop}
    [∀ c i inp, Decidable (ok c i inp)] {acts : List (Id × Input Id)} {events : List (Event Id)}
    (h : ((Cluster.init cfg).run cfg ok acts).map (·.events) = some events) :
    ∃ c, Reachable cfg ok c ∧ c.events = events := by
  obtain ⟨c, hc, he⟩ := Option.map_eq_some_iff.mp h
  exact ⟨c, Reachable.init.run hc, he⟩

/-! ## Quorums -/

/-- Two sets of members that both reach a majority have a member in common. -/
theorem majority_inter {cfg : Config Id} {i j : Id} (hi : i ∈ cfg.members) (hj : j ∈ cfg.members)
    {U V : List Id} (hU : U.Nodup) (hV : V.Nodup) (hUs : ∀ x ∈ U, x ∈ cfg.members)
    (hVs : ∀ x ∈ V, x ∈ cfg.members) (hUc : majority (cfg.peers i) ≤ U.length)
    (hVc : majority (cfg.peers j) ≤ V.length) : ∃ x, x ∈ U ∧ x ∈ V := by
  by_contra hcon
  push Not at hcon
  have hdisj : List.Disjoint U V := fun x hx hx' => hcon x hx hx'
  have hsub : (U ++ V).length ≤ cfg.members.length := by
    refine (List.Nodup.subperm (hU.append hV hdisj) ?_).length_le
    intro x hx
    rcases List.mem_append.mp hx with h | h
    · exact hUs x h
    · exact hVs x h
  have h1 := (cfg.peers_perm i hi).length_eq
  have h2 := (cfg.peers_perm j hj).length_eq
  simp only [List.length_cons, List.length_append] at h1 h2 hsub
  unfold majority at hUc hVc
  omega

end Cluster

end KvStore.Raft
