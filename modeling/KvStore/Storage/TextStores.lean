import KvStore.Raft.Encoding
import KvStore.Storage.Recovery

/-!
# Stores that hold text

The operations of a `MemStore` keep keys and values UTF-8 if their arguments are: the decimal
digits that `Incr` writes are ASCII, and expiry only drops entries.
-/

namespace KvStore.Utf8

/-- ASCII is well formed. -/
theorem valid_of_ascii {s : List UInt8} (h : ∀ b ∈ s, b < 0x80) : Valid s := by
  induction s with
  | nil => exact .nil
  | cons b s ih =>
    have hb : charTail b [] = some 0 := by simp [charTail, leading, h b (by simp), continues]
    exact Valid.char hb (ih fun b' hb' => h b' (by simp [hb']))

end KvStore.Utf8

namespace KvStore.Storage

open KvStore.Expiring (live)

theorem valid_formatInt (v : ℤ) : Utf8.Valid (formatInt v) := by
  have hdigit : ∀ n : ℕ, ∀ b ∈ (Nat.digits 10 n).reverse.map fun d => 48 + d.toUInt8, b < 0x80 := by
    intro n b hb
    obtain ⟨d, hd, rfl⟩ := List.mem_map.mp hb
    have hlt : d < 10 := Nat.digits_lt_base (by norm_num) (List.mem_reverse.mp hd)
    interval_cases d <;> decide
  refine Utf8.valid_of_ascii fun b hb => ?_
  unfold formatInt at hb
  cases hn : v.natAbs with
  | zero =>
    rw [hn] at hb
    split_ifs at hb
    · rcases List.mem_cons.mp hb with rfl | hb
      · decide
      · rw [List.mem_singleton.mp hb]
        decide
    · rw [List.mem_singleton.mp hb]
      decide
  | succ n =>
    rw [hn] at hb
    split_ifs at hb
    · rcases List.mem_cons.mp hb with rfl | hb
      · decide
      · exact hdigit _ b hb
    · exact hdigit _ b hb

/-- What a command leaves in a cell is text. -/
theorem Command.IsText.onCell {cmd : Command} (h : cmd.IsText) {c : Option Entry}
    (hc : ∀ e, c = some e → Utf8.Valid e.value) (t : Int64) :
    ∀ e, (cmd.onCell t c).2 = some e → Utf8.Valid e.value := by
  have hlive : ∀ e, live t c = some e → Utf8.Valid e.value := fun e he =>
    hc e (Expiring.live_eq_some_iff.mp he).1
  have hone : Utf8.Valid [49] := Utf8.valid_of_ascii (by simp)
  intro e he
  unfold Command.onCell at he
  cases hop : cmd.op <;> rw [hop] at he <;> dsimp only at he
  case put =>
    cases he
    exact h.2.2
  case delete => cases he
  case clear => cases he
  case other => exact hc e he
  all_goals
    cases hl : live t c with
    | none =>
      rw [hl] at he
      cases he <;> exact hone
    | some e₀ =>
      have hv := hlive e₀ hl
      rw [hl] at he
      dsimp only at he
      first
        | (split at he
           · cases he
             exact hv
           · split_ifs at he <;> cases he
             · exact hv
             · exact valid_formatInt _)
        | (split_ifs at he <;> cases he
           · exact hv
           · exact h.2.2)
        | (cases he
           exact hv)

/-- Every operation with text arguments keeps a store of text. -/
theorem MemStore.IsText.apply {m : MemStore} (h : m.IsText) {cmd : Command} (hcmd : cmd.IsText)
    (t : Int64) : (m.apply cmd t).2.IsText := by
  intro k e hk
  rw [MemStore.apply_cell] at hk
  split_ifs at hk with htouch
  · have hvalue := hcmd.onCell (fun e he => (h k e he).2) t e hk
    refine ⟨?_, hvalue⟩
    rcases htouch with hclear | rfl
    · rw [Command.onCell, hclear] at hk
      cases hk
    · exact hcmd.1
  · exact h k e hk

/-- A store with fewer entries. -/
theorem MemStore.IsText.of_subset {m m' : MemStore} (h : m.IsText)
    (hsub : ∀ k e, m'.cell k = some e → m.cell k = some e) : m'.IsText :=
  fun k e hk => h k e (hsub k e hk)

theorem MemStore.IsText.put {m : MemStore} (h : m.IsText) {key value : Bytes}
    (hkey : Utf8.Valid key) (hvalue : Utf8.Valid value) : (m.put key value).IsText := by
  intro k e hk
  rw [MemStore.cell_put] at hk
  split_ifs at hk with hkk
  · cases hk
    exact ⟨hkk ▸ hkey, hvalue⟩
  · exact h k e hk

theorem MemStore.IsText.lookup {m : MemStore} (h : m.IsText) (key : Bytes) (t : Int64) :
    (m.lookup key t).2.IsText := by
  refine h.of_subset fun k e hk => ?_
  rw [MemStore.cell_lookup] at hk
  split_ifs at hk
  · exact (Expiring.live_eq_some_iff.mp hk).1
  · exact hk

theorem MemStore.IsText.sweepExpired {m : MemStore} (h : m.IsText) (t : Int64) :
    (m.sweepExpired t).2.IsText := by
  refine h.of_subset fun k e hk => ?_
  rw [MemStore.cell_sweepExpired] at hk
  exact (Expiring.live_eq_some_iff.mp hk).1

theorem MemStore.IsText.get {m : MemStore} (h : m.IsText) (key : Bytes) (now later : Int64) :
    (m.get key now later).2.IsText := by
  refine h.of_subset fun k e hk => ?_
  rcases m.cell_get key k now later with hsame | ⟨hnone, -⟩
  · rw [← hsame]
    exact hk
  · rw [hnone] at hk
    cases hk

end KvStore.Storage
