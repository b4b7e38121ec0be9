import KvStore.Api.Handlers
import KvStore.Storage.MatchGlob
import KvStore.Storage.Sweeps

/-!
# Iterating over a scan

A client of `GET /kv` asks for pages until the cursor it gets back is empty, while others
change the store (`pkg/storage/memstore.go:190`, `pkg/api/handlers.go:225`). The cursor is the
last key of a full page and excluded from the next one, so an empty cursor has to mean the end:
no key may be empty. Keys with a star are outside of what `matchGlob` decides
(`Storage/MatchGlob.lean`). `validateKey` keeps both away from the store.

* `visits`: the pages a client is given, from the stores that its calls find.
* `mem_scanned_iff`, `scanned_ordered`: what one call collects.
* `visits_ordered`, `visits_live`, `visits_complete`, `visits_finish`: over all pages.
* `scan_pages`: with the changes between the pages written out.
-/

namespace KvStore.Api

open KvStore.Storage
open KvStore.Glob (Matches)
open KvStore.Expiring (live)

/-! ## The iteration -/

/-- A page that was handed out: the store it was taken of, at which reading, and what the client
    is given. -/
structure Visit where
  store : MemStore
  now : Int64
  items : List (Bytes × Bytes)
  next : Bytes

/-- The pages of a client that begins after `cursor`; its calls find the stores of the list. The
    client stops at an empty cursor, or at an error. -/
def visits (count : ℤ) (pattern cursor : Bytes) : List (MemStore × Int64) → List Visit
  | [] => []
  | (m, now) :: found =>
    match m.scan cursor count pattern now with
    | none => []
    | some (items, next) =>
      ⟨m, now, items, next⟩ :: if next = [] then [] else visits count pattern next found

/-- The keys of the pages, in the order in which the client gets them. -/
def keys (vs : List Visit) : List Bytes := vs.flatMap fun v => v.items.map Prod.fst

/-- The client has been told that nothing is left. -/
def Finished (vs : List Visit) : Prop := ∃ v ∈ vs, v.next = []

/-- The key is alive in the store of the page. -/
def Visit.Alive (v : Visit) (key : Bytes) : Prop := ∃ e, live v.now (v.store.cell key) = some e

/-- `*` stands for any run of characters, and the empty pattern for all keys. -/
def Matched (pattern key : Bytes) : Prop := pattern = [] ∨ Matches starByte pattern key

/-- The keys of the store are those that `validateKey` lets through. -/
def Keyed (m : MemStore) : Prop := ∀ k e, m.cell k = some e → keyMatches k = true

/-! ## One page -/

/-- The key sorts after the cursor. -/
def After (cursor key : Bytes) : Prop := cursor = [] ∨ compare cursor key = .lt

theorem keyMatches.ne_nil {key : Bytes} (h : keyMatches key = true) : key ≠ [] := by
  simp only [keyMatches, Bool.and_eq_true, decide_eq_true_eq] at h
  exact h.1

theorem keyMatches.no_star {key : Bytes} (h : keyMatches key = true) : starByte ∉ key := by
  simp only [keyMatches, Bool.and_eq_true, List.all_eq_true] at h
  intro hmem
  have hstar : keyByte starByte = true := h.2 _ hmem
  exact absurd hstar (by decide)

/-- On the keys of the interface the matcher is right. -/
theorem matchGlob_iff_matched {pattern key : Bytes} (h : keyMatches key = true) :
    matchGlob pattern key = true ↔ Matched pattern key := by
  by_cases hp : pattern = []
  · simp [matchGlob, Matched, hp]
  · have hlast : starByte ∉ key.dropLast :=
      fun hmem => keyMatches.no_star h (List.mem_of_mem_dropLast hmem)
    rw [matchGlob_iff hlast hp, Matched, or_iff_right hp]

theorem selected_iff {cursor pattern key : Bytes} (h : keyMatches key = true) :
    selected cursor pattern key = true ↔ After cursor key ∧ Matched pattern key := by
  rw [selected, Bool.and_eq_true, matchGlob_iff_matched h]
  simp [After, Std.OrientedCmp.gt_iff_lt]

section Page

variable {m : MemStore} {cursor pattern : Bytes} {now : Int64}

/-- A call collects what is alive, matches and sorts after the cursor. -/
theorem mem_scanned_iff (hm : Keyed m) {k v : Bytes} :
    (k, v) ∈ m.scanned cursor pattern now ↔
      (∃ e, live now (m.cell k) = some e ∧ e.value = v) ∧ After cursor k ∧ Matched pattern k := by
  simp only [MemStore.scanned, List.mem_map, List.mem_filter, Prod.mk.injEq, Prod.exists,
    Std.ExtTreeMap.mem_toList_iff_getElem?_eq_some, Bool.and_eq_true, Bool.not_eq_true']
  constructor
  · rintro ⟨k', e, ⟨hcell, hlive, hsel⟩, rfl, rfl⟩
    rw [selected_iff (hm k' e hcell)] at hsel
    exact ⟨⟨e, Expiring.live_eq_some_iff.mpr ⟨hcell, hlive⟩, rfl⟩, hsel⟩
  · rintro ⟨⟨e, he, rfl⟩, hsel⟩
    obtain ⟨hcell, hlive⟩ := Expiring.live_eq_some_iff.mp he
    rw [← selected_iff (hm k e hcell)] at hsel
    exact ⟨k, e, ⟨hcell, hlive, hsel⟩, rfl, rfl⟩

/-- A call collects in the order of the keys. -/
theorem scanned_ordered (m : MemStore) (cursor pattern : Bytes) (now : Int64) :
    (m.scanned cursor pattern now).Pairwise fun a b => compare a.1 b.1 = .lt := by
  rw [MemStore.scanned, List.pairwise_map]
  exact Std.ExtTreeMap.ordered_keys_toList.filter _

/-- What a client is given: the first part of what was collected, and as cursor the last key of
    it, unless nothing is left. -/
structure Served (m : MemStore) (cursor pattern : Bytes) (now : Int64)
    (items rest : List (Bytes × Bytes)) (next : Bytes) : Prop where
  split : m.scanned cursor pattern now = items ++ rest
  last : next ≠ [] → ∃ init v, items = init ++ [(next, v)]
  done : next = [] → rest = []

theorem scan_served {count : ℤ} (hcount : 1 ≤ count) (hm : Keyed m) (cursor pattern : Bytes)
    (now : Int64) : ∃ items rest next, m.scan cursor count pattern now = some (items, next) ∧
      Served m cursor pattern now items rest next := by
  have hpos : ¬ count ≤ 0 := by omega
  have hn : 0 < count.toNat := by omega
  rw [MemStore.scan, if_neg hpos]
  generalize count.toNat = n at hn
  refine ⟨_, (m.scanned cursor pattern now).drop n, _, rfl, ?_⟩
  have hsplit := (List.take_append_drop n (m.scanned cursor pattern now)).symm
  rcases Nat.lt_or_ge (m.scanned cursor pattern now).length n with hshort | hfull
  · have htake : ((m.scanned cursor pattern now).take n).length ≠ n := by
      rw [List.length_take]
      omega
    simp only [if_neg htake]
    exact ⟨hsplit, fun h => absurd rfl h, fun _ => List.drop_eq_nil_of_le (Nat.le_of_lt hshort)⟩
  · have htake : ((m.scanned cursor pattern now).take n).length = n := by
      rw [List.length_take]
      omega
    have hne : (m.scanned cursor pattern now).take n ≠ [] := by
      intro hnil
      rw [hnil, List.length_nil] at htake
      omega
    obtain ⟨init, ⟨k, v⟩, hlast⟩ := (List.eq_nil_or_concat' _).resolve_left hne
    have hmem : (k, v) ∈ m.scanned cursor pattern now := by
      apply List.mem_of_mem_take (i := n)
      rw [hlast]
      simp
    have hk : k ≠ [] := by
      obtain ⟨⟨e, he, -⟩, -⟩ := (mem_scanned_iff hm).mp hmem
      exact keyMatches.ne_nil (hm k e (Expiring.live_eq_some_iff.mp he).1)
    have hnext : (((m.scanned cursor pattern now).take n).getLast?.map Prod.fst).getD [] = k := by
      rw [hlast]
      simp
    simp only [if_pos htake, hnext]
    exact ⟨hsplit, fun _ => ⟨init, v, hlast⟩, fun h => absurd h hk⟩

/-- A key that was collected is on the page or sorts after the cursor that is handed out. -/
theorem Served.before_or_after {items rest : List (Bytes × Bytes)} {next : Bytes}
    (h : Served m cursor pattern now items rest next) {p : Bytes × Bytes}
    (hp : p ∈ m.scanned cursor pattern now) :
    p ∈ items ∨ p ∈ rest ∧ next ≠ [] ∧ compare next p.1 = .lt := by
  rw [h.split, List.mem_append] at hp
  rcases hp with hitem | hrest
  · exact Or.inl hitem
  · have hnext : next ≠ [] := by
      intro hnil
      rw [h.done hnil] at hrest
      cases hrest
    obtain ⟨init, v, hitems⟩ := h.last hnext
    have hord := scanned_ordered m cursor pattern now
    rw [h.split, List.pairwise_append] at hord
    have hmem : (next, v) ∈ items := by
      rw [hitems]
      simp
    exact Or.inr ⟨hrest, hnext, hord.2.2 _ hmem _ hrest⟩

/-- The keys on the page do not sort after the cursor that is handed out. -/
theorem Served.le_next {items rest : List (Bytes × Bytes)} {next : Bytes}
    (h : Served m cursor pattern now items rest next) (hnext : next ≠ []) {p : Bytes × Bytes}
    (hp : p ∈ items) : compare p.1 next = .lt ∨ p.1 = next := by
  obtain ⟨init, v, hitems⟩ := h.last hnext
  have hord := scanned_ordered m cursor pattern now
  rw [h.split, hitems, List.pairwise_append] at hord
  have hinit := List.pairwise_append.mp hord.1
  rw [hitems, List.mem_append] at hp
  rcases hp with hp | hp
  · exact Or.inl (hinit.2.2 p hp (next, v) (List.mem_singleton_self _))
  · exact Or.inr (by rw [List.mem_singleton.mp hp])

/-- The keys on the page sort after the cursor that was asked for. -/
theorem Served.after_cursor (hm : Keyed m) {items rest : List (Bytes × Bytes)} {next : Bytes}
    (h : Served m cursor pattern now items rest next) {p : Bytes × Bytes} (hp : p ∈ items) :
    After cursor p.1 := by
  have hmem : (p.1, p.2) ∈ m.scanned cursor pattern now := by
    rw [h.split]
    exact List.mem_append_left _ hp
  exact ((mem_scanned_iff hm).mp hmem).2.1

/-- So does the cursor that is handed out. -/
theorem Served.after_next (hm : Keyed m) {items rest : List (Bytes × Bytes)} {next : Bytes}
    (h : Served m cursor pattern now items rest next) (hnext : next ≠ []) : After cursor next := by
  obtain ⟨init, v, hitems⟩ := h.last hnext
  exact h.after_cursor hm (p := (next, v)) (by rw [hitems]; simp)

end Page

theorem compare_ne_lt_self (k : Bytes) : compare k k ≠ .lt := by simp

theorem After.lt {cursor k : Bytes} (hc : cursor ≠ []) (h : After cursor k) :
    compare cursor k = .lt := h.resolve_left hc

theorem After.trans {cursor next k : Bytes} (h : After cursor next)
    (hk : compare next k = .lt) : After cursor k := by
  rcases h with hnil | hlt
  · exact Or.inl hnil
  · exact Or.inr (Std.TransCmp.lt_trans hlt hk)

/-! ## All pages -/

section Pages

variable {count : ℤ} {pattern cursor : Bytes} {found : List (MemStore × Int64)}

/-- The first page, and the others from its cursor on. -/
theorem visits_cons (hcount : 1 ≤ count) {m : MemStore} (hm : Keyed m) (pattern cursor : Bytes)
    (now : Int64) (found : List (MemStore × Int64)) :
    ∃ items rest next, Served m cursor pattern now items rest next ∧
      visits count pattern cursor ((m, now) :: found) =
        ⟨m, now, items, next⟩ :: if next = [] then [] else visits count pattern next found := by
  obtain ⟨items, rest, next, hscan, hserved⟩ := scan_served hcount hm cursor pattern now
  refine ⟨items, rest, next, hserved, ?_⟩
  rw [visits, hscan]

@[simp] theorem keys_nil : keys [] = [] := rfl

@[simp] theorem keys_cons (v : Visit) (vs : List Visit) :
    keys (v :: vs) = v.items.map Prod.fst ++ keys vs := by
  simp [keys]

/-- All pages come after the cursor. -/
theorem visits_after (hcount : 1 ≤ count) (hfound : ∀ p ∈ found, Keyed p.1) :
    ∀ k ∈ keys (visits count pattern cursor found), After cursor k := by
  induction found generalizing cursor with
  | nil => simp [visits]
  | cons p found ih =>
    obtain ⟨m, now⟩ := p
    have hm : Keyed m := hfound (m, now) (List.mem_cons_self ..)
    obtain ⟨items, rest, next, hserved, heq⟩ := visits_cons hcount hm pattern cursor now found
    intro k hk
    rw [heq, keys_cons, List.mem_append] at hk
    rcases hk with hk | hk
    · obtain ⟨q, hq, rfl⟩ := List.mem_map.mp hk
      exact hserved.after_cursor hm hq
    · by_cases hnext : next = []
      · rw [if_pos hnext] at hk
        cases hk
      · rw [if_neg hnext] at hk
        have hlater := ih (fun q hq => hfound q (List.mem_cons_of_mem _ hq)) k hk
        exact (hserved.after_next hm hnext).trans (hlater.lt hnext)

/-- **Keys come strictly increasing**, over all pages. -/
theorem visits_ordered (hcount : 1 ≤ count) (hfound : ∀ p ∈ found, Keyed p.1) :
    (keys (visits count pattern cursor found)).Pairwise fun a b => compare a b = .lt := by
  induction found generalizing cursor with
  | nil => simp [visits]
  | cons p found ih =>
    obtain ⟨m, now⟩ := p
    have hm : Keyed m := hfound (m, now) (List.mem_cons_self ..)
    have hrest : ∀ q ∈ found, Keyed q.1 := fun q hq => hfound q (List.mem_cons_of_mem _ hq)
    obtain ⟨items, rest, next, hserved, heq⟩ := visits_cons hcount hm pattern cursor now found
    have hitems : items.Pairwise fun a b => compare a.1 b.1 = .lt := by
      have hord := scanned_ordered m cursor pattern now
      rw [hserved.split] at hord
      exact (List.pairwise_append.mp hord).1
    rw [heq, keys_cons, List.pairwise_append, List.pairwise_map]
    refine ⟨hitems, ?_, ?_⟩
    · split_ifs
      · exact List.Pairwise.nil
      · exact ih hrest
    · -- a key of this page, up to the cursor, and one of a later page
      intro a ha b hb
      obtain ⟨q, hq, rfl⟩ := List.mem_map.mp ha
      by_cases hnext : next = []
      · rw [if_pos hnext] at hb
        cases hb
      · rw [if_neg hnext] at hb
        have hlt := (visits_after hcount hrest b hb).lt hnext
        rcases hserved.le_next hnext hq with hle | heq
        · exact Std.TransCmp.lt_trans hle hlt
        · exact heq ▸ hlt

/-- **What is returned is alive and matches**, at its page. -/
theorem visits_live (hcount : 1 ≤ count) (hfound : ∀ p ∈ found, Keyed p.1) :
    ∀ v ∈ visits count pattern cursor found, ∀ item ∈ v.items,
      (∃ e, live v.now (v.store.cell item.1) = some e ∧ e.value = item.2) ∧
        Matched pattern item.1 := by
  induction found generalizing cursor with
  | nil => simp [visits]
  | cons p found ih =>
    obtain ⟨m, now⟩ := p
    have hm : Keyed m := hfound (m, now) (List.mem_cons_self ..)
    obtain ⟨items, rest, next, hserved, heq⟩ := visits_cons hcount hm pattern cursor now found
    intro v hv item hitem
    rw [heq, List.mem_cons] at hv
    rcases hv with rfl | hv
    · have hmem : (item.1, item.2) ∈ m.scanned cursor pattern now := by
        rw [hserved.split]
        exact List.mem_append_left _ hitem
      obtain ⟨hlive, -, hmatch⟩ := (mem_scanned_iff hm).mp hmem
      exact ⟨hlive, hmatch⟩
    · by_cases hnext : next = []
      · rw [if_pos hnext] at hv
        cases hv
      · rw [if_neg hnext] at hv
        exact ih (fun q hq => hfound q (List.mem_cons_of_mem _ hq)) v hv item hitem

/-- **What is alive at all pages is returned**, once the client is told that nothing is left. -/
theorem visits_complete (hcount : 1 ≤ count) (hfound : ∀ p ∈ found, Keyed p.1) {k : Bytes}
    (hk : After cursor k) (hmatch : Matched pattern k)
    (hdone : Finished (visits count pattern cursor found))
    (halive : ∀ v ∈ visits count pattern cursor found, v.Alive k) :
    k ∈ keys (visits count pattern cursor found) := by
  induction found generalizing cursor with
  | nil =>
    obtain ⟨v, hv, -⟩ := hdone
    cases hv
  | cons p found ih =>
    obtain ⟨m, now⟩ := p
    have hm : Keyed m := hfound (m, now) (List.mem_cons_self ..)
    obtain ⟨items, rest, next, hserved, heq⟩ := visits_cons hcount hm pattern cursor now found
    rw [heq] at hdone halive ⊢
    obtain ⟨e, he⟩ := halive _ (List.mem_cons_self ..)
    have hmem : (k, e.value) ∈ m.scanned cursor pattern now :=
      (mem_scanned_iff hm).mpr ⟨⟨e, he, rfl⟩, hk, hmatch⟩
    rw [keys_cons, List.mem_append]
    rcases hserved.before_or_after hmem with hitem | ⟨-, hnext, hlt⟩
    · exact Or.inl (List.mem_map.mpr ⟨_, hitem, rfl⟩)
    · -- the key is still ahead, so the client goes on
      rw [if_neg hnext] at hdone halive ⊢
      have hdone' : Finished (visits count pattern next found) := by
        obtain ⟨v, hv, hnil⟩ := hdone
        rcases List.mem_cons.mp hv with rfl | hv
        · exact absurd hnil hnext
        · exact ⟨v, hv, hnil⟩
      exact Or.inr (ih (fun q hq => hfound q (List.mem_cons_of_mem _ hq)) (Or.inr hlt) hdone'
        fun v hv => halive v (List.mem_cons_of_mem _ hv))

/-- The pages are taken of the stores that were found. -/
theorem visits_found : ∀ v ∈ visits count pattern cursor found, (v.store, v.now) ∈ found := by
  induction found generalizing cursor with
  | nil => simp [visits]
  | cons p found ih =>
    obtain ⟨m, now⟩ := p
    intro v hv
    rw [visits] at hv
    cases hscan : m.scan cursor count pattern now with
    | none =>
      rw [hscan] at hv
      cases hv
    | some r =>
      rw [hscan, List.mem_cons] at hv
      rcases hv with rfl | hv
      · exact List.mem_cons_self ..
      · split_ifs at hv
        · cases hv
        · exact List.mem_cons_of_mem _ (ih v hv)

/-- Asking again after the cursor of a page, less is left. -/
theorem Served.less {m : MemStore} (hm : Keyed m) {now : Int64} {items rest : List (Bytes × Bytes)}
    {next : Bytes} (h : Served m cursor pattern now items rest next) (hnext : next ≠ []) :
    (m.scanned next pattern now).length < (m.scanned cursor pattern now).length := by
  have hsub : m.scanned next pattern now ⊆ rest := by
    rintro ⟨k, v⟩ hmem
    obtain ⟨hlive, hafter, hmatch⟩ := (mem_scanned_iff hm).mp hmem
    have hlt := hafter.lt hnext
    have hmem' : (k, v) ∈ m.scanned cursor pattern now :=
      (mem_scanned_iff hm).mpr ⟨hlive, (h.after_next hm hnext).trans hlt, hmatch⟩
    rcases h.before_or_after hmem' with hitem | ⟨hrest, -⟩
    · -- a key of the page is not after its last one
      exfalso
      rcases h.le_next hnext hitem with hle | heq
      · exact compare_ne_lt_self k (Std.TransCmp.lt_trans hle hlt)
      · obtain rfl : k = next := heq
        exact compare_ne_lt_self k hlt
    · exact hrest
  have hnodup : (m.scanned next pattern now).Nodup := by
    refine (scanned_ordered m next pattern now).imp ?_
    rintro a b hlt rfl
    exact compare_ne_lt_self a.1 hlt
  have hle : (m.scanned next pattern now).length ≤ rest.length :=
    (hnodup.subperm hsub).length_le
  obtain ⟨init, v, hitems⟩ := h.last hnext
  rw [h.split, List.length_append, hitems, List.length_append]
  have hone : [(next, v)].length = 1 := rfl
  omega

/-- **An iteration over a store that does not change ends.** -/
theorem visits_finish (hcount : 1 ≤ count) {m : MemStore} (hm : Keyed m) (pattern cursor : Bytes)
    (now : Int64) :
    ∃ n, Finished (visits count pattern cursor (List.replicate n (m, now))) := by
  induction hn : (m.scanned cursor pattern now).length using Nat.strong_induction_on
    generalizing cursor with
  | _ n ih =>
    obtain ⟨items, rest, next, hscan, hserved⟩ := scan_served hcount hm cursor pattern now
    by_cases hnext : next = []
    · refine ⟨1, ⟨m, now, items, next⟩, ?_, hnext⟩
      rw [List.replicate_one, visits, hscan]
      exact List.mem_cons_self ..
    · obtain ⟨l, v, hv, hnil⟩ := ih _ (hn ▸ hserved.less hm hnext) next rfl
      refine ⟨l + 1, v, ?_, hnil⟩
      rw [List.replicate_succ, visits, hscan]
      simpa only [if_neg hnext] using List.mem_cons_of_mem _ hv

/-- It gives the live matching keys. -/
theorem visits_unchanged (hcount : 1 ≤ count) {m : MemStore} (hm : Keyed m) (now : Int64) (n : ℕ)
    (hn : Finished (visits count pattern [] (List.replicate n (m, now)))) (k : Bytes) :
    k ∈ keys (visits count pattern [] (List.replicate n (m, now))) ↔
      Matched pattern k ∧ ∃ e, live now (m.cell k) = some e := by
  have hsame : ∀ v ∈ visits count pattern [] (List.replicate n (m, now)),
      v.store = m ∧ v.now = now := fun v hv =>
    Prod.mk.inj (List.eq_of_mem_replicate (visits_found v hv))
  have hkeyed : ∀ p ∈ List.replicate n (m, now), Keyed p.1 := fun p hp => by
    rw [List.eq_of_mem_replicate hp]
    exact hm
  constructor
  · intro hk
    obtain ⟨v, hv, hk⟩ := List.mem_flatMap.mp hk
    obtain ⟨item, hitem, rfl⟩ := List.mem_map.mp hk
    obtain ⟨⟨e, he, -⟩, hmatch⟩ := visits_live hcount hkeyed v hv item hitem
    rw [(hsame v hv).1, (hsame v hv).2] at he
    exact ⟨hmatch, e, he⟩
  · rintro ⟨hmatch, e, he⟩
    refine visits_complete hcount hkeyed (Or.inl rfl) hmatch hn fun v hv => ⟨e, ?_⟩
    rw [(hsame v hv).1, (hsame v hv).2]
    exact he

end Pages

/-! ## Changes between the pages -/

/-- What happens before a page is asked for, and the reading at which it is taken. -/
structure Round where
  changes : List Timed
  now : Int64

/-- The store after a call. -/
def afterCall (m : MemStore) (c : Timed) : MemStore :=
  match c.call with
  | .inl call => (m.perform c.now c.later call).2
  | .inr extra => m.performExtra c.now c.later extra

/-- The stores that the pages find. -/
def found (m : MemStore) : List Round → List (MemStore × Int64)
  | [] => []
  | r :: rounds =>
    let m := r.changes.foldl afterCall m
    (m, r.now) :: found m rounds

/-- The key that an operation may put into the store. -/
def creates? (c : Timed) : Option Bytes :=
  match c.call with
  | .inl (.engine (.put key _)) => some key
  | .inl (.engine (.incr key)) => some key
  | _ => none

theorem Keyed.of_sub {m m' : MemStore} (hm : Keyed m)
    (hsub : ∀ k e, m'.cell k = some e → ∃ e', m.cell k = some e') : Keyed m' := by
  intro k e h
  obtain ⟨e', h'⟩ := hsub k e h
  exact hm k e' h'

theorem Keyed.insert {m : MemStore} (hm : Keyed m) {key : Bytes} (hkey : keyMatches key = true)
    (e : Entry) (n : UInt64) : Keyed ⟨m.data.insert key e, n⟩ := by
  intro k e' h
  rw [MemStore.cell_insert] at h
  split_ifs at h with hk
  · exact hk ▸ hkey
  · exact hm k e' h

theorem Keyed.put {m : MemStore} (hm : Keyed m) {key : Bytes} (hkey : keyMatches key = true)
    (v : Bytes) : Keyed (m.put key v) := hm.insert hkey _ _

theorem Keyed.delete {m : MemStore} (hm : Keyed m) (key : Bytes) : Keyed (m.delete key) := by
  refine hm.of_sub fun k e h => ?_
  rw [MemStore.cell_delete] at h
  split_ifs at h
  exact ⟨e, h⟩

theorem keyed_clear (m : MemStore) : Keyed m.clear := by
  intro k e h
  rw [MemStore.cell_clear] at h
  cases h

theorem Keyed.lookup {m : MemStore} (hm : Keyed m) (key : Bytes) (now : Int64) :
    Keyed (m.lookup key now).2 := by
  refine hm.of_sub fun k e h => ?_
  rw [MemStore.cell_lookup] at h
  split_ifs at h
  · exact ⟨e, (Expiring.live_eq_some_iff.mp h).1⟩
  · exact ⟨e, h⟩

theorem Keyed.get {m : MemStore} (hm : Keyed m) (key : Bytes) (now later : Int64) :
    Keyed (m.get key now later).2 := by
  refine hm.of_sub fun k e h => ?_
  rcases m.cell_get key k now later with heq | ⟨hnone, -⟩
  · exact ⟨e, heq ▸ h⟩
  · rw [hnone] at h
    cases h

/-- The check of `Incr`, `CAS` and `Expire` on such a store; a key that is found is one of it. -/
theorem Keyed.lookup_split {m : MemStore} (hm : Keyed m) (key : Bytes) (now : Int64) :
    ∃ o n, m.lookup key now = (o, n) ∧ Keyed n ∧ (o ≠ none → keyMatches key = true) := by
  refine ⟨(m.lookup key now).1, (m.lookup key now).2, rfl, hm.lookup key now, ?_⟩
  intro ho
  rw [MemStore.lookup_fst] at ho
  obtain ⟨e, he⟩ := Option.ne_none_iff_exists'.mp ho
  exact hm key e (Expiring.live_eq_some_iff.mp he).1

theorem Keyed.incr {m : MemStore} (hm : Keyed m) {key : Bytes} (hkey : keyMatches key = true)
    (now : Int64) : Keyed (m.incr key now).2 := by
  obtain ⟨o, n, hl, hn, -⟩ := hm.lookup_split key now
  rw [MemStore.incr, hl]
  cases o with
  | none => exact hn.insert hkey _ _
  | some e =>
    cases hp : parseInt e.value with
    | none => simpa only [hp] using hn
    | some v =>
      by_cases hv : v = maxInt64
      · simpa only [hp, if_pos hv] using hn
      · simpa only [hp, if_neg hv] using hn.put hkey _

theorem Keyed.cas {m : MemStore} (hm : Keyed m) (key old new : Bytes) (now : Int64) :
    Keyed (m.cas key old new now).2 := by
  obtain ⟨o, n, hl, hn, hkey⟩ := hm.lookup_split key now
  rw [MemStore.cas, hl]
  cases o with
  | none => exact hn
  | some e =>
    by_cases hv : e.value ≠ old
    · simpa only [if_pos hv] using hn
    · simpa only [if_neg hv] using hn.put (hkey (by simp)) _

theorem Keyed.expire {m : MemStore} (hm : Keyed m) (key : Bytes) (expiresAt now : Int64) :
    Keyed (m.expire key expiresAt now).2 := by
  obtain ⟨o, n, hl, hn, hkey⟩ := hm.lookup_split key now
  rw [MemStore.expire, hl]
  cases o with
  | none => exact hn
  | some e => exact hn.insert (hkey (by simp)) _ _

section AfterCall

variable (m : MemStore) (now later : Int64) (key : Bytes)

theorem afterCall_get :
    afterCall m ⟨.inl (.engine (.get key)), now, later⟩ = (m.get key now later).2 := by
  simp only [afterCall, MemStore.perform]
  rcases m.get key now later with ⟨- | -, n⟩ <;> rfl

theorem afterCall_incr :
    afterCall m ⟨.inl (.engine (.incr key)), now, later⟩ = (m.incr key now).2 := by
  simp only [afterCall, MemStore.perform, MemStore.call]
  rcases m.incr key now with ⟨- | -, n⟩ <;> rfl

theorem afterCall_cas (old new : Bytes) :
    afterCall m ⟨.inl (.engine (.cas key old new)), now, later⟩ = (m.cas key old new now).2 := by
  simp only [afterCall, MemStore.perform, MemStore.call]
  rcases m.cas key old new now with ⟨- | -, n⟩ <;> rfl

theorem afterCall_expire (expiresAt : Int64) :
    afterCall m ⟨.inl (.engine (.expire key expiresAt)), now, later⟩ =
      (m.expire key expiresAt now).2 := by
  simp only [afterCall, MemStore.perform, MemStore.call]
  rcases m.expire key expiresAt now with ⟨- | -, n⟩ <;> rfl

theorem afterCall_scan (cursor : Bytes) (count : ℤ) (pattern : Bytes) :
    afterCall m ⟨.inl (.engine (.scan cursor count pattern)), now, later⟩ = m := by
  simp only [afterCall, MemStore.perform, MemStore.call]
  rcases m.scan cursor count pattern now with - | page <;> rfl

end AfterCall

/-- A call puts no other key into the store than the one it names. -/
theorem Keyed.afterCall {m : MemStore} (hm : Keyed m) {c : Timed}
    (hc : ∀ k, creates? c = some k → keyMatches k = true) : Keyed (afterCall m c) := by
  obtain ⟨call, now, later⟩ := c
  cases call with
  | inr extra =>
    cases extra with
    | sweepExpired =>
      refine hm.of_sub fun k e h => ?_
      have h' : (m.sweepExpired now).2.cell k = some e := h
      rw [MemStore.cell_sweepExpired] at h'
      exact ⟨e, (Expiring.live_eq_some_iff.mp h').1⟩
    | get key => exact hm.get key now later
  | inl call =>
    cases call with
    | size => exact hm
    | engine op =>
      cases op with
      | get key =>
        rw [afterCall_get]
        exact hm.get key now later
      | put key value => exact hm.put (hc key rfl) value
      | delete key => exact hm.delete key
      | clear => exact keyed_clear m
      | incr key =>
        rw [afterCall_incr]
        exact hm.incr (hc key rfl) now
      | cas key old new =>
        rw [afterCall_cas]
        exact hm.cas key old new now
      | expire key expiresAt =>
        rw [afterCall_expire]
        exact hm.expire key expiresAt now
      | scan cursor count pattern =>
        rw [afterCall_scan]
        exact hm

theorem Keyed.found {m : MemStore} (hm : Keyed m) {rounds : List Round}
    (hrounds : ∀ r ∈ rounds, ∀ c ∈ r.changes, ∀ k, creates? c = some k → keyMatches k = true) :
    ∀ p ∈ found m rounds, Keyed p.1 := by
  induction rounds generalizing m with
  | nil => simp [Api.found]
  | cons r rounds ih =>
    have hafter : ∀ calls : List Timed,
        (∀ c ∈ calls, ∀ k, creates? c = some k → keyMatches k = true) →
          Keyed (calls.foldl Api.afterCall m) := by
      intro calls
      induction calls using List.reverseRecOn with
      | nil => exact fun _ => hm
      | append_singleton calls c ih =>
        intro hcalls
        rw [List.foldl_append]
        exact (ih fun c' hc' => hcalls c' (List.mem_append_left _ hc')).afterCall
          (hcalls c (by simp))
    have hm' := hafter r.changes (hrounds r (List.mem_cons_self ..))
    intro p hp
    rcases List.mem_cons.mp hp with rfl | hp
    · exact hm'
    · exact ih hm' (fun r' hr' => hrounds r' (List.mem_cons_of_mem _ hr')) p hp

theorem found_replicate (m : MemStore) (n : ℕ) (now : Int64) :
    found m (List.replicate n ⟨[], now⟩) = List.replicate n (m, now) := by
  induction n with
  | zero => rfl
  | succ n ih =>
    rw [List.replicate_succ, List.replicate_succ, found]
    exact congrArg _ ih

/-- The pages of a client that begins with the empty cursor. -/
def pages (m : MemStore) (count : ℤ) (pattern : Bytes) (rounds : List Round) : List Visit :=
  visits count pattern [] (found m rounds)

/-- **Paged scans are complete and free of duplicates.** Whatever is done between the pages, keys
    come strictly increasing, each is alive and matches at its page, and a matching key that is
    alive at all pages of an iteration that ended comes exactly once. Without changes and with a
    fixed clock the iteration ends, and gives the live matching keys in order. -/
theorem scan_pages (m : MemStore) (hm : Keyed m) (count : ℤ) (hcount : 1 ≤ count) (pattern : Bytes)
    (rounds : List Round)
    (hrounds : ∀ r ∈ rounds, ∀ c ∈ r.changes, ∀ k, creates? c = some k → keyMatches k = true) :
    (keys (pages m count pattern rounds)).Pairwise (fun a b => compare a b = .lt) ∧
      (∀ v ∈ pages m count pattern rounds, ∀ item ∈ v.items,
        (∃ e, live v.now (v.store.cell item.1) = some e ∧ e.value = item.2) ∧
          Matched pattern item.1) ∧
      (Finished (pages m count pattern rounds) → ∀ k, Matched pattern k →
        (∀ v ∈ pages m count pattern rounds, v.Alive k) →
          (keys (pages m count pattern rounds)).count k = 1) ∧
      ∀ now, ∃ n, Finished (pages m count pattern (List.replicate n ⟨[], now⟩)) ∧
        (keys (pages m count pattern (List.replicate n ⟨[], now⟩))).Pairwise
          (fun a b => compare a b = .lt) ∧
        ∀ k, k ∈ keys (pages m count pattern (List.replicate n ⟨[], now⟩)) ↔
          Matched pattern k ∧ ∃ e, live now (m.cell k) = some e := by
  have hfound := hm.found hrounds
  have hordered : (keys (pages m count pattern rounds)).Pairwise fun a b => compare a b = .lt :=
    visits_ordered hcount hfound
  refine ⟨hordered, visits_live hcount hfound, ?_, ?_⟩
  · intro hdone k hmatch halive
    have hmem := visits_complete hcount hfound (Or.inl rfl) hmatch hdone halive
    have hnodup : (keys (pages m count pattern rounds)).Nodup := by
      refine hordered.imp ?_
      rintro a b hlt rfl
      exact compare_ne_lt_self a hlt
    exact List.count_eq_one_of_mem hnodup hmem
  · intro now
    obtain ⟨n, hn⟩ := visits_finish hcount hm pattern [] now
    have heq : pages m count pattern (List.replicate n ⟨[], now⟩) =
        visits count pattern [] (List.replicate n (m, now)) := by rw [pages, found_replicate]
    have hkeyed : ∀ p ∈ List.replicate n (m, now), Keyed p.1 := fun p hp => by
      rw [List.eq_of_mem_replicate hp]
      exact hm
    refine ⟨n, ?_⟩
    rw [heq]
    exact ⟨hn, visits_ordered hcount hkeyed, visits_unchanged hcount hm now n hn⟩

/-- The pattern `*` takes every key. -/
theorem scanned_star {m : MemStore} (hm : Keyed m) (cursor : Bytes) (now : Int64) :
    m.scanned cursor [starByte] now = m.scanned cursor [] now := by
  unfold MemStore.scanned
  refine congrArg _ (List.filter_congr fun p hp => ?_)
  have hkey : keyMatches p.1 = true :=
    hm p.1 p.2 (Std.ExtTreeMap.mem_toList_iff_getElem?_eq_some.mp hp)
  have hstar : matchGlob [starByte] p.1 = true := by
    refine (matchGlob_iff (fun h => keyMatches.no_star hkey (List.mem_of_mem_dropLast h))
      (by simp)).mpr ?_
    have hrun : Matches starByte [starByte] (p.1 ++ []) := .run p.1 .nil
    rwa [List.append_nil] at hrun
  rw [selected, selected, hstar, show matchGlob [] p.1 = true from rfl]

theorem visits_star {count : ℤ} {cursor : Bytes} {found : List (MemStore × Int64)}
    (hfound : ∀ p ∈ found, Keyed p.1) :
    visits count [starByte] cursor found = visits count [] cursor found := by
  induction found generalizing cursor with
  | nil => rfl
  | cons p found ih =>
    obtain ⟨m, now⟩ := p
    have hm : Keyed m := hfound (m, now) (List.mem_cons_self ..)
    have hrest := fun p hp => hfound p (List.mem_cons_of_mem _ hp)
    simp only [visits, MemStore.scan, scanned_star hm, ih hrest]

/-- Three pages, with a key put in between the first and the second. -/
def putBetween : List Round :=
  [⟨[], 0⟩, ⟨[⟨.inl (.engine (.put [98] [50])), 1, 1⟩], 2⟩, ⟨[], 3⟩]

/-- Pages of one item: both keys come, in order, the one that was there all the time exactly once,
    and the client is told the end. -/
theorem scan_pages_put_between :
    Keyed (MemStore.new.put [97] [49]) ∧
      Finished (pages (MemStore.new.put [97] [49]) 1 [starByte] putBetween) ∧
      keys (pages (MemStore.new.put [97] [49]) 1 [starByte] putBetween) = [[97], [98]] ∧
      (keys (pages (MemStore.new.put [97] [49]) 1 [starByte] putBetween)).Pairwise
        (fun a b => compare a b = .lt) ∧
      (keys (pages (MemStore.new.put [97] [49]) 1 [starByte] putBetween)).count [97] = 1 := by
  have hnew : Keyed MemStore.new := by
    intro k e h
    rw [MemStore.cell_new] at h
    cases h
  have hm : Keyed (MemStore.new.put [97] [49]) := hnew.put (by decide) _
  have hrounds : ∀ r ∈ putBetween, ∀ c ∈ r.changes, ∀ k, creates? c = some k →
      keyMatches k = true := by simp [putBetween, creates?, keyMatches, keyByte]
  obtain ⟨hordered, -, honce, -⟩ := scan_pages _ hm 1 (le_refl _) [starByte] putBetween hrounds
  have hall : pages (MemStore.new.put [97] [49]) 1 [starByte] putBetween =
      pages (MemStore.new.put [97] [49]) 1 [] putBetween := visits_star (hm.found hrounds)
  have hfinished : Finished (pages (MemStore.new.put [97] [49]) 1 [starByte] putBetween) := by
    rw [hall]
    exact ⟨_, List.mem_of_getLast? rfl, rfl⟩
  refine ⟨hm, hfinished, ?_, hordered, honce hfinished [97] (.inr ?_) ?_⟩
  · rw [hall]
    rfl
  · exact Matches.run [97] .nil
  · have halive : (pages (MemStore.new.put [97] [49]) 1 [] putBetween).all (fun v =>
        (live v.now (v.store.cell [97])).isSome) = true := rfl
    rw [hall]
    intro v hv
    exact Option.isSome_iff_exists.mp (List.all_eq_true.mp halive v hv)

end KvStore.Api
