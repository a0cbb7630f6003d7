import ErrorFree.Proofs.Heap.Eviction
import Mathlib.Data.List.DropRight

/-!
# Sequential access

**Order of writes.**  `DropsOldest R`: if the addresses of a full heap precede a new one in the order
`R`, the first of them makes room.  This holds for ascending and for descending addresses.

**Window.**  `Holds h writes`: the heap holds the values of these writes and nothing else.  A history
in such an order leaves a heap that holds its last writes, as many as there is room for
(`holds_after`): the induction goes along the history, and each write takes the place of the oldest
one.

**Result.**  `sequential_window`: the contents after a strictly ascending or descending history.
-/

namespace ErrorFree

namespace Heap

open Binary64

/-- What a write makes resident. -/
def entry (w : Binary64 × Binary64) : Int × Binary64 := (normalize w.1, w.2)

/-- The heap holds the values of the writes, and nothing else. -/
def Holds (h : Heap) (writes : List (Binary64 × Binary64)) : Prop :=
  ∀ k v, h.values[k]? = some v ↔ (k, v) ∈ writes.map entry

/-- The writes come in the order `R` of their addresses. -/
def InOrder (R : Int → Int → Prop) (writes : List (Binary64 × Binary64)) : Prop :=
  writes.Pairwise fun w w' => R (normalize w.1) (normalize w'.1)

/-- A new address that comes after all resident ones takes the place of the first of them. -/
def DropsOldest (R : Int → Int → Prop) : Prop :=
  ∀ {h : Heap} {a : Binary64} {k : Int}, h.InUse → h.length = h.capacity →
    (∀ j ∈ h.values, R j (normalize a)) → k ∈ h.values → (∀ j ∈ h.values, j ≠ k → R k j) →
      h.evicted? (normalize a) = some k

theorem dropsOldest_ascending : DropsOldest (· < ·) := by
  intro h a k hu hfull hbefore hk hfirst
  obtain ⟨low, high, hlow, hhigh⟩ := exists_extremes_of_full hu.room hfull
  have habove := hbefore high (Std.ExtTreeMap.maxKey?_mem hhigh)
  obtain ⟨hmem, hleast⟩ := minKey?_eq_some_iff.mp hlow
  obtain rfl : low = k := by
    by_contra hne
    exact absurd (hleast k hk) (Int.not_le.mpr (hfirst low hmem hne))
  exact evicted?_of_above hu hfull hlow hhigh habove

theorem dropsOldest_descending : DropsOldest (· > ·) := by
  intro h a k hu hfull hbefore hk hfirst
  obtain ⟨low, high, hlow, hhigh⟩ := exists_extremes_of_full hu.room hfull
  have hbelow := hbefore low (Std.ExtTreeMap.minKey?_mem hlow)
  obtain ⟨hmem, hgreatest⟩ := maxKey?_eq_some_iff.mp hhigh
  obtain rfl : high = k := by
    by_contra hne
    exact absurd (hgreatest k hk) (Int.not_le.mpr (hfirst high hmem hne))
  exact evicted?_of_below hu hfull hlow hhigh hbelow

section Holds

variable {h : Heap} {R : Int → Int → Prop} [Std.Irrefl R] {writes kept : List (Binary64 × Binary64)}
  {w oldest : Binary64 × Binary64}

theorem Holds.mem_iff (hh : h.Holds writes) {k : Int} :
    k ∈ h.values ↔ ∃ w ∈ writes, normalize w.1 = k := by
  rw [Std.ExtTreeMap.mem_iff_isSome_getElem?, Option.isSome_iff_exists]
  constructor
  · rintro ⟨v, hv⟩
    obtain ⟨w, hw, heq⟩ := List.mem_map.mp ((hh k v).mp hv)
    exact ⟨w, hw, congrArg Prod.fst heq⟩
  · rintro ⟨w, hw, rfl⟩
    exact ⟨w.2, (hh _ _).mpr (List.mem_map_of_mem hw)⟩

theorem Holds.reverse (hh : h.Holds writes) : h.Holds writes.reverse := by
  intro k v
  rw [hh k v, List.map_reverse, List.mem_reverse]

theorem InOrder.nodup (ho : InOrder R writes) : (writes.map entry).Nodup := by
  rw [List.Nodup, List.pairwise_map]
  apply ho.imp
  intro w w' hR heq
  have hkey : normalize w.1 = normalize w'.1 := congrArg Prod.fst heq
  exact Std.Irrefl.irrefl _ (hkey ▸ hR)

theorem toList_pairwise (values : Std.ExtTreeMap Int Binary64) :
    values.toList.Pairwise fun c d => c.1 < d.1 :=
  Std.ExtTreeMap.ordered_keys_toList.imp Std.compare_eq_lt.mp

theorem Holds.perm (hh : h.Holds writes) (hnodup : (writes.map entry).Nodup) :
    h.values.toList.Perm (writes.map entry) := by
  have hdistinct : h.values.toList.Nodup :=
    (toList_pairwise h.values).imp fun hlt heq => Int.ne_of_lt hlt (congrArg Prod.fst heq)
  rw [List.perm_ext_iff_of_nodup hdistinct hnodup]
  intro c
  rw [Std.ExtTreeMap.mem_toList_iff_getElem?_eq_some]
  exact hh c.1 c.2

theorem Holds.length_eq (hh : h.Holds writes) (hnodup : (writes.map entry).Nodup) :
    h.length = writes.length := by
  rw [length, ← Std.ExtTreeMap.length_toList, (hh.perm hnodup).length_eq, List.length_map]

/-- The contents are the writes, if these ascend. -/
theorem Holds.cells_eq (hh : h.Holds writes) (ho : InOrder (· < ·) writes) :
    h.cells = writes.map fun w => (target w.1, w.2) := by
  have hordered : (writes.map entry).Pairwise fun c d => c.1 < d.1 := List.pairwise_map.mpr ho
  have hlist : h.values.toList = writes.map entry :=
    List.Perm.eq_of_pairwise (fun _ _ _ _ hlt hgt => absurd hlt (Int.lt_asymm hgt))
      (toList_pairwise h.values) hordered (hh.perm ho.nodup)
  rw [cells, hlist, List.map_map]
  apply List.map_congr_left
  intro w _
  exact Prod.ext (ofInt_normalize w.1) rfl

/-- A write of a new address is held besides the writes that are not evicted. -/
theorem Holds.write (hh : h.Holds writes) (hu : h.InUse) (hnew : normalize w.1 ∉ h.values)
    (hkept : ∀ w', w' ∈ kept ↔
      w' ∈ writes ∧ h.evicted? (normalize w.1) ≠ some (normalize w'.1)) :
    (h.write w.1 w.2).Holds (kept ++ [w]) := by
  intro k v
  have hold : (k, v) ∈ kept.map entry ↔
      (k, v) ∈ writes.map entry ∧ h.evicted? (normalize w.1) ≠ some k := by
    simp only [List.mem_map, hkept]
    constructor
    · rintro ⟨w', ⟨hw', hstays⟩, heq⟩
      obtain ⟨rfl, rfl⟩ := Prod.mk.inj heq
      exact ⟨⟨w', hw', rfl⟩, hstays⟩
    · rintro ⟨⟨w', hw', heq⟩, hstays⟩
      obtain ⟨rfl, rfl⟩ := Prod.mk.inj heq
      exact ⟨w', ⟨hw', hstays⟩, rfl⟩
  have hlast : (k, v) ∈ [w].map entry ↔ normalize w.1 = k ∧ w.2 = v := by
    rw [List.map_singleton, List.mem_singleton, entry, Prod.mk.injEq, eq_comm, @eq_comm _ v]
  rw [getElem?_write hu.valid hu.room, List.map_append, List.mem_append, hold, hlast, ← hh k v]
  by_cases hself : normalize w.1 = k
  · have hnone : h.values[k]? = none := by
      rw [← hself]
      exact Std.ExtTreeMap.getElem?_eq_none hnew
    simp [hself, hnone]
  · by_cases hgone : h.evicted? (normalize w.1) = some k
    · simp [hself, hgone]
    · simp [hself, hgone]

/-- With room left, a write joins the others. -/
theorem Holds.write_of_room (hh : h.Holds writes) (hu : h.InUse) (hnew : normalize w.1 ∉ h.values)
    (hroom : h.length < h.capacity) : (h.write w.1 w.2).Holds (writes ++ [w]) := by
  apply hh.write hu hnew
  intro w'
  rw [evicted?_of_room (Or.inr hroom)]
  exact (and_iff_left nofun).symm

/-- Without room, a write that comes after the others takes the place of the first. -/
theorem Holds.write_of_full (hR : DropsOldest R) (hh : h.Holds (oldest :: kept)) (hu : h.InUse)
    (hfull : h.length = h.capacity) (ho : InOrder R (oldest :: kept))
    (hlast : ∀ k ∈ h.values, R k (normalize w.1)) : (h.write w.1 w.2).Holds (kept ++ [w]) := by
  obtain ⟨hfirst, -⟩ := List.pairwise_cons.mp ho
  have hnew : normalize w.1 ∉ h.values := fun hmem => Std.Irrefl.irrefl _ (hlast _ hmem)
  have hevicted : h.evicted? (normalize w.1) = some (normalize oldest.1) := by
    apply hR hu hfull hlast (hh.mem_iff.mpr ⟨oldest, List.mem_cons_self, rfl⟩)
    intro k hk hne
    obtain ⟨w', hw', rfl⟩ := hh.mem_iff.mp hk
    rcases List.mem_cons.mp hw' with rfl | hrest
    · exact absurd rfl hne
    · exact hfirst w' hrest
  apply hh.write hu hnew
  intro w'
  rw [hevicted, List.mem_cons]
  constructor
  · intro hw'
    refine ⟨Or.inr hw', fun heq => ?_⟩
    exact Std.Irrefl.irrefl _ (Option.some.inj heq ▸ hfirst w' hw')
  · rintro ⟨rfl | hw', hne⟩
    · exact absurd rfl hne
    · exact hw'

end Holds

section Window

variable {R : Int → Int → Prop} [Std.Irrefl R] {history : List (Binary64 × Binary64)}

theorem rtake_of_length_le {n : Nat} (h : history.length ≤ n) : history.rtake n = history := by
  rw [List.rtake, Nat.sub_eq_zero_of_le h, List.drop_zero]

theorem exists_rtake_succ {n : Nat} (h : n < history.length) :
    ∃ w, history.rtake (n + 1) = w :: history.rtake n := by
  have hnext : history.length - (n + 1) + 1 = history.length - n := by omega
  refine ⟨history[history.length - (n + 1)], ?_⟩
  rw [List.rtake, List.rtake, List.drop_eq_getElem_cons (by omega), hnext]

/-- **The window.**  After writes in the order `R` the heap holds the last of them. -/
theorem holds_after (hR : DropsOldest R) {capacity : Nat} (hpos : 1 ≤ capacity)
    (ho : InOrder R history) : (after capacity history).Holds (history.rtake capacity) := by
  obtain ⟨n, rfl⟩ : ∃ n, capacity = n + 1 := ⟨capacity - 1, by omega⟩
  induction history using List.reverseRecOn with
  | nil =>
      intro k v
      simp [after, writeAll, empty]
  | append_singleton history w ih =>
      obtain ⟨hhistory, -, hlast⟩ := List.pairwise_append.mp ho
      have hh := ih hhistory
      have hu := inUse_after hpos history
      have hwindow : InOrder R (history.rtake (n + 1)) := hhistory.sublist (List.drop_sublist _ _)
      have hlength := hh.length_eq hwindow.nodup
      have hcapacity := capacity_after (n + 1) history
      have hafter : ∀ k ∈ (after (n + 1) history).values, R k (normalize w.1) := by
        intro k hk
        obtain ⟨w', hw', rfl⟩ := hh.mem_iff.mp hk
        exact hlast w' (List.mem_of_mem_drop hw') w (List.mem_singleton_self w)
      rw [List.rtake, List.length_drop] at hlength
      rw [after_concat, List.rtake_concat_succ]
      -- Either the window has slid off the oldest of its writes, or it is the whole history so far.
      rcases Nat.lt_or_ge n history.length with hfull | hroom
      · obtain ⟨oldest, hcons⟩ := exists_rtake_succ hfull
        rw [hcons] at hh hwindow
        exact hh.write_of_full hR hu (by omega) hwindow hafter
      · rw [rtake_of_length_le (Nat.le_succ_of_le hroom)] at hh
        rw [rtake_of_length_le hroom]
        have hnew : normalize w.1 ∉ (after (n + 1) history).values :=
          fun hmem => Std.Irrefl.irrefl _ (hafter _ hmem)
        exact hh.write_of_room hu hnew (by omega)

end Window

theorem target_less_iff (a b : Binary64) :
    (target a).less (target b) = true ↔ normalize a < normalize b := by
  rw [← ofInt_normalize, ← ofInt_normalize,
    ofInt_less_iff (representable_normalize a) (representable_normalize b)]

/-- **Sequential access gives a sliding window.**  With room for at least one address:

* after writes to strictly ascending addresses the heap holds the last ones, as many as the capacity
  allows, each with its value;
* after writes to strictly descending addresses as well, the last write first;
* whatever was written, a write above all addresses of a full heap evicts the lowest of them and no
  other, and a write below all of them the highest. -/
theorem sequential_window (capacity : Nat) (hpos : 1 ≤ capacity)
    (history : List (Binary64 × Binary64)) :
    (history.Pairwise (fun w w' => (target w.1).less (target w'.1) = true) →
      (after capacity history).cells =
        (history.rtake capacity).map fun w => (target w.1, w.2)) ∧
    (history.Pairwise (fun w w' => (target w'.1).less (target w.1) = true) →
      (after capacity history).cells =
        ((history.rtake capacity).map fun w => (target w.1, w.2)).reverse) ∧
    ((after capacity history).length = capacity →
      ∃ low high, (after capacity history).min? = some low ∧
        (after capacity history).max? = some high ∧ ∀ a v,
        (high.less (target a) = true →
          ∀ e, (after capacity history).Evicts a v e ↔ e = low) ∧
        ((target a).less low = true →
          ∀ e, (after capacity history).Evicts a v e ↔ e = high)) := by
  simp only [target_less_iff]
  refine ⟨fun hascending => ?_, fun hdescending => ?_, fun hfull => ?_⟩
  · have hh := holds_after dropsOldest_ascending hpos hascending
    exact hh.cells_eq (hascending.sublist (List.drop_sublist _ _))
  · have hh := holds_after dropsOldest_descending hpos hdescending
    have hwindow : InOrder (· > ·) (history.rtake capacity) :=
      hdescending.sublist (List.drop_sublist _ _)
    rw [hh.reverse.cells_eq (List.pairwise_reverse.mpr hwindow), List.map_reverse]
  · exact evicts_outside (inUse_after hpos history)
      (hfull.trans (capacity_after capacity history).symm)

/-- The difference of `2 ^ 1023` and its negative is too large for a number, and the window moves on
all the same, upwards and downwards. -/
theorem sequential_window_far :
    1 ≤ 2 ∧
    (after 2 [(.finite true 1 2097 (by decide), one), (zero, negOne),
      (.finite false 1 2097 (by decide), one)]).cells =
        [(zero, negOne), (.finite false 1 2097 (by decide), one)] ∧
    (after 2 [(.finite false 1 2097 (by decide), one), (zero, negOne),
      (.finite true 1 2097 (by decide), one)]).cells =
        [(.finite true 1 2097 (by decide), one), (zero, negOne)] := by
  obtain ⟨hascending, -, -⟩ := sequential_window 2 (by decide)
    [(.finite true 1 2097 (by decide), one), (zero, negOne),
      (.finite false 1 2097 (by decide), one)]
  obtain ⟨-, hdescending, -⟩ := sequential_window 2 (by decide)
    [(.finite false 1 2097 (by decide), one), (zero, negOne),
      (.finite true 1 2097 (by decide), one)]
  exact ⟨by decide, (hascending (by decide +kernel)).trans (by decide +kernel),
    (hdescending (by decide +kernel)).trans (by decide +kernel)⟩

end Heap

end ErrorFree
