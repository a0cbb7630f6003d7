import ErrorFree.Proofs.Binary64.Monotone
import ErrorFree.Proofs.Heap.Frame

/-!
# Which address makes room

The distances of a new address from the two extremes are rounded before they are compared.

**Rounded distances.**  Rounding never turns an order around, so the lowest address makes room only
if it is farther (`lt_of_evicts_low`).  Up to `2 ^ 52` the distances are exact, and the exact ones
decide (`sub_less_sub_iff`).

**Outside the resident range.**  One distance is negative and the other at least one.  Rounding keeps
them apart at every magnitude (`victim_of_above`, `victim_of_below`).

**Results.**
* `evicts_outside`: a write beyond one extreme evicts the other one.
* `evicts_farther`: the extreme that is evicted is the one farther from the new address.
-/

namespace ErrorFree

namespace Heap

open Binary64

section Distances

variable {address low high : Int}

/-- The distance of two addresses of at most `2 ^ 52` is a number. -/
theorem isNumber_sub {j k : Int} (hj : Representable j) (hk : Representable k)
    (hj' : |(ofInt j).value| ≤ 2 ^ 52) (hk' : |(ofInt k).value| ≤ 2 ^ 52) :
    IsNumber ((ofInt j).value - (ofInt k).value) := by
  rw [value_ofInt hj, abs_le] at hj'
  rw [value_ofInt hk, abs_le] at hk'
  rw [value_ofInt hj, value_ofInt hk, ← Int.cast_sub]
  obtain ⟨hjlow, hjhigh⟩ : -2 ^ 52 ≤ j ∧ j ≤ 2 ^ 52 := by exact_mod_cast hj'
  obtain ⟨hklow, hkhigh⟩ : -2 ^ 52 ≤ k ∧ k ≤ 2 ^ 52 := by exact_mod_cast hk'
  exact isNumber_intCast_of_le (by omega)

/-- Exact distances are compared as they are. -/
theorem sub_less_sub_iff (ha : Representable address) (hlow : Representable low)
    (hhigh : Representable high) (ha' : |(ofInt address).value| ≤ 2 ^ 52)
    (hlow' : |(ofInt low).value| ≤ 2 ^ 52) (hhigh' : |(ofInt high).value| ≤ 2 ^ 52) :
    (ofInt high - ofInt address).less (ofInt address - ofInt low) = true ↔
      (ofInt high).value - (ofInt address).value < (ofInt address).value - (ofInt low).value := by
  obtain ⟨hfinite, hvalue⟩ :=
    (rounded_sub hhigh.1 ha.1).exact (isNumber_sub hhigh ha hhigh' ha')
  obtain ⟨hfinite', hvalue'⟩ := (rounded_sub ha.1 hlow.1).exact (isNumber_sub ha hlow ha' hlow')
  rw [less_iff_value_lt hfinite hfinite', hvalue, hvalue']

theorem victim_eq_low_iff (hne : low ≠ high) :
    victim address low high = low ↔
      (ofInt high - ofInt address).less (ofInt address - ofInt low) = true := by
  unfold victim
  split
  · rename_i hless
    exact iff_of_true rfl hless
  · rename_i hless
    exact iff_of_false hne.symm hless

/-- Above the resident addresses the lowest one is farther. -/
theorem victim_of_above (ha : Representable address) (hlow : Representable low)
    (hhigh : Representable high) (hle : low ≤ high) (habove : high < address) :
    victim address low high = low := by
  have hone : (ofNat 1).value = (1 : Int) := value_ofNat (by decide)
  -- Zero and one lie between the two distances.
  have hbefore : (ofInt high).value - (ofInt address).value ≤ zero.value := by
    rw [value_ofInt ha, value_ofInt hhigh, value_zero, sub_nonpos]
    exact_mod_cast habove.le
  have hbehind : (ofNat 1).value ≤ (ofInt address).value - (ofInt low).value := by
    have hdistance : 1 ≤ address - low := by omega
    rw [value_ofInt ha, value_ofInt hlow, hone]
    exact_mod_cast hdistance
  have hbetween : zero.value < (ofNat 1).value := by
    rw [value_zero, hone]
    exact_mod_cast Int.one_pos
  exact if_pos ((rounded_sub hhigh.1 ha.1).less_of_between (rounded_sub ha.1 hlow.1) rfl
    (isFinite_ofNat (by decide)) hbefore hbetween hbehind)

/-- Below the resident addresses the highest one is farther. -/
theorem victim_of_below (ha : Representable address) (hlow : Representable low)
    (hhigh : Representable high) (hle : low ≤ high) (hbelow : address < low) :
    victim address low high = high := by
  refine if_neg fun hless => ?_
  have hlt := (rounded_sub hhigh.1 ha.1).lt_of_less (rounded_sub ha.1 hlow.1) hless
  rw [value_ofInt ha, value_ofInt hlow, value_ofInt hhigh] at hlt
  have hdistances : high - address < address - low := by exact_mod_cast hlt
  omega

end Distances

section Extremes

variable {h : Heap} {low high : Int}

theorem low_le_high (hlow : h.values.minKey? = some low) (hhigh : h.values.maxKey? = some high) :
    low ≤ high :=
  (minKey?_eq_some_iff.mp hlow).2 high (Std.ExtTreeMap.maxKey?_mem hhigh)

/-- Two resident addresses or more have different extremes. -/
theorem low_lt_high (hlow : h.values.minKey? = some low) (hhigh : h.values.maxKey? = some high)
    (htwo : 2 ≤ h.length) : low < high := by
  obtain ⟨hmem, hleast⟩ := minKey?_eq_some_iff.mp hlow
  have hgreatest := (maxKey?_eq_some_iff.mp hhigh).2
  -- Without the lowest address there is still one left.
  have hrest : 0 < (h.values.erase low).size := by
    have hsize := size_erase_of_mem hmem
    rw [length] at htwo
    omega
  obtain ⟨k, -, hk, -⟩ := exists_extremes hrest
  have hkept := Std.ExtTreeMap.mem_erase.mp (Std.ExtTreeMap.minKey?_mem hk)
  have hne : low ≠ k := fun heq => hkept.1 (Std.LawfulEqCmp.compare_eq_iff_eq.mpr heq)
  have hle := hleast k hkept.2
  have hge := hgreatest k hkept.2
  omega

end Extremes

section Full

/-- A write finds its address not resident and the heap full. -/
structure Crowded (h : Heap) (a : Binary64) (low high : Int) : Prop where
  inUse : h.InUse
  new : normalize a ∉ h.values
  full : h.length = h.capacity
  low : h.values.minKey? = some low
  high : h.values.maxKey? = some high

variable {h : Heap} {a v : Binary64} {low high k : Int}

namespace Crowded

variable (hc : h.Crowded a low high)

include hc

theorem low_mem : low ∈ h.values := Std.ExtTreeMap.minKey?_mem hc.low

theorem high_mem : high ∈ h.values := Std.ExtTreeMap.maxKey?_mem hc.high

theorem representable_low : Representable low := hc.inUse.whole low hc.low_mem

theorem representable_high : Representable high := hc.inUse.whole high hc.high_mem

theorem evicted?_eq : h.evicted? (normalize a) = some (victim (normalize a) low high) :=
  evicted?_of_full hc.new hc.full hc.low hc.high

theorem evicts_ofInt_iff (hk : k ∈ h.values) :
    h.Evicts a v (ofInt k) ↔ victim (normalize a) low high = k := by
  rw [evicts_iff_of_evicted? hc.inUse hc.evicted?_eq]
  constructor
  · have hmem := mem_of_evicted? hc.inUse.valid hc.evicted?_eq
    exact ofInt_injOn (hc.inUse.whole _ hmem) (hc.inUse.whole k hk)
  · exact congrArg ofInt

/-- One of two extremes is evicted, and not both. -/
theorem evicts_high_iff (hne : low ≠ high) :
    h.Evicts a v (ofInt high) ↔ ¬ h.Evicts a v (ofInt low) := by
  rw [hc.evicts_ofInt_iff hc.low_mem, hc.evicts_ofInt_iff hc.high_mem]
  rcases victim_eq (normalize a) low high with heq | heq
  · rw [heq]
    exact iff_of_false hne (not_not.mpr rfl)
  · rw [heq]
    exact iff_of_true rfl hne.symm

theorem evicts_low_iff (hne : low ≠ high) :
    h.Evicts a v (ofInt low) ↔ (ofInt high - target a).less (target a - ofInt low) = true := by
  rw [hc.evicts_ofInt_iff hc.low_mem, victim_eq_low_iff hne, ofInt_normalize]

/-- The lowest address is evicted only if it is farther. -/
theorem lt_of_evicts_low (hne : low ≠ high) (he : h.Evicts a v (ofInt low)) :
    (ofInt high).value - (target a).value < (target a).value - (ofInt low).value := by
  have ha := representable_normalize a
  rw [← ofInt_normalize]
  rw [hc.evicts_low_iff hne, ← ofInt_normalize] at he
  exact (rounded_sub hc.representable_high.1 ha.1).lt_of_less
    (rounded_sub ha.1 hc.representable_low.1) he

/-- Up to `2 ^ 52` the farther one of two extremes is evicted. -/
theorem evicts_low_iff_lt (hne : low ≠ high) (hlow : |(ofInt low).value| ≤ 2 ^ 52)
    (hhigh : |(ofInt high).value| ≤ 2 ^ 52) (ha : |(target a).value| ≤ 2 ^ 52) :
    h.Evicts a v (ofInt low) ↔
      (ofInt high).value - (target a).value < (target a).value - (ofInt low).value := by
  rw [hc.evicts_low_iff hne]
  rw [← ofInt_normalize] at ha ⊢
  exact sub_less_sub_iff (representable_normalize a) hc.representable_low hc.representable_high ha
    hlow hhigh

end Crowded

end Full

section Outside

variable {h : Heap} {a : Binary64} {low high : Int}

/-- Above the resident addresses the lowest one makes room. -/
theorem evicted?_of_above (hu : h.InUse) (hfull : h.length = h.capacity)
    (hlow : h.values.minKey? = some low) (hhigh : h.values.maxKey? = some high)
    (habove : high < normalize a) : h.evicted? (normalize a) = some low := by
  have hnew : normalize a ∉ h.values := fun hmem =>
    absurd ((maxKey?_eq_some_iff.mp hhigh).2 _ hmem) (Int.not_le.mpr habove)
  rw [evicted?_of_full hnew hfull hlow hhigh, victim_of_above (representable_normalize a)
    (hu.whole low (Std.ExtTreeMap.minKey?_mem hlow))
    (hu.whole high (Std.ExtTreeMap.maxKey?_mem hhigh)) (low_le_high hlow hhigh) habove]

/-- Below the resident addresses the highest one makes room. -/
theorem evicted?_of_below (hu : h.InUse) (hfull : h.length = h.capacity)
    (hlow : h.values.minKey? = some low) (hhigh : h.values.maxKey? = some high)
    (hbelow : normalize a < low) : h.evicted? (normalize a) = some high := by
  have hnew : normalize a ∉ h.values := fun hmem =>
    absurd ((minKey?_eq_some_iff.mp hlow).2 _ hmem) (Int.not_le.mpr hbelow)
  rw [evicted?_of_full hnew hfull hlow hhigh, victim_of_below (representable_normalize a)
    (hu.whole low (Std.ExtTreeMap.minKey?_mem hlow))
    (hu.whole high (Std.ExtTreeMap.maxKey?_mem hhigh)) (low_le_high hlow hhigh) hbelow]

/-- Outside the resident range the extreme on the other side is evicted. -/
theorem evicts_outside (hu : h.InUse) (hfull : h.length = h.capacity) :
    ∃ low high, h.min? = some low ∧ h.max? = some high ∧ ∀ a v,
      (high.less (target a) = true → ∀ e, h.Evicts a v e ↔ e = low) ∧
      ((target a).less low = true → ∀ e, h.Evicts a v e ↔ e = high) := by
  obtain ⟨low, high, hlow, hhigh⟩ := exists_extremes_of_full hu.room hfull
  have hrep := hu.whole low (Std.ExtTreeMap.minKey?_mem hlow)
  have hrep' := hu.whole high (Std.ExtTreeMap.maxKey?_mem hhigh)
  refine ⟨ofInt low, ofInt high, congrArg (Option.map ofInt) hlow,
    congrArg (Option.map ofInt) hhigh, fun a v => ⟨fun habove e => ?_, fun hbelow e => ?_⟩⟩
  · rw [← ofInt_normalize, ofInt_less_iff hrep' (representable_normalize a)] at habove
    rw [evicts_iff_of_evicted? hu (evicted?_of_above hu hfull hlow hhigh habove), eq_comm]
  · rw [← ofInt_normalize, ofInt_less_iff (representable_normalize a) hrep] at hbelow
    rw [evicts_iff_of_evicted? hu (evicted?_of_below hu hfull hlow hhigh hbelow), eq_comm]

end Outside

/-- **The farther extreme is evicted.**  A heap that writes lead to, with two addresses at least, is
full, and a write goes to an address that is not resident.  Then:

* the lowest address is below the highest, and one of these two is evicted;
* if it is the lowest, then it is farther from the new address, whatever the magnitudes are;
* if none of the three is beyond `2 ^ 52`, then the lowest is evicted exactly if it is farther, and
  the highest otherwise, also if both are equally far. -/
theorem evicts_farther (capacity : Nat) (history : List (Binary64 × Binary64)) (a v : Binary64)
    (hfull : (after capacity history).length = capacity)
    (htwo : 2 ≤ (after capacity history).length)
    (hnew : target a ∉ (after capacity history).addresses) :
    ∃ low high, (after capacity history).min? = some low ∧
      (after capacity history).max? = some high ∧ low.less high = true ∧
      ((after capacity history).Evicts a v high ↔ ¬ (after capacity history).Evicts a v low) ∧
      ((after capacity history).Evicts a v low →
        high.value - (target a).value < (target a).value - low.value) ∧
      (|low.value| ≤ 2 ^ 52 → |high.value| ≤ 2 ^ 52 → |(target a).value| ≤ 2 ^ 52 →
        ((after capacity history).Evicts a v low ↔
          high.value - (target a).value < (target a).value - low.value) ∧
        ((after capacity history).Evicts a v high ↔
          (target a).value - low.value ≤ high.value - (target a).value)) := by
  have hu : (after capacity history).InUse := inUse_after (by omega) history
  obtain ⟨low, high, hlow, hhigh⟩ :=
    exists_extremes (by omega : 0 < (after capacity history).length)
  have hc : (after capacity history).Crowded a low high :=
    { inUse := hu
      new := (target_mem_addresses_iff hu.whole a).not.mp hnew
      full := hfull.trans (capacity_after capacity history).symm
      low := hlow
      high := hhigh }
  have hlt : low < high := low_lt_high hlow hhigh htwo
  refine ⟨ofInt low, ofInt high, congrArg (Option.map ofInt) hlow,
    congrArg (Option.map ofInt) hhigh,
    (ofInt_less_iff hc.representable_low hc.representable_high).mpr hlt,
    hc.evicts_high_iff hlt.ne, hc.lt_of_evicts_low hlt.ne, fun hlow' hhigh' ha' => ?_⟩
  have hiff := hc.evicts_low_iff_lt (v := v) hlt.ne hlow' hhigh' ha'
  exact ⟨hiff, by rw [hc.evicts_high_iff hlt.ne, hiff, not_lt]⟩

/-- Five is as far from zero as from ten, and ten makes room for it. -/
theorem evicts_farther_tie :
    (after 2 [(ofNat 0, one), (ofNat 10, one)]).length = 2 ∧
    2 ≤ (after 2 [(ofNat 0, one), (ofNat 10, one)]).length ∧
    target (ofNat 5) ∉ (after 2 [(ofNat 0, one), (ofNat 10, one)]).addresses ∧
    (after 2 [(ofNat 0, one), (ofNat 10, one)]).Evicts (ofNat 5) negOne (ofNat 10) := by
  have hfull : (after 2 [(ofNat 0, one), (ofNat 10, one)]).length = 2 := by decide
  have htwo : 2 ≤ (after 2 [(ofNat 0, one), (ofNat 10, one)]).length := by decide
  have hnew : target (ofNat 5) ∉ (after 2 [(ofNat 0, one), (ofNat 10, one)]).addresses := by decide
  have hrange : ∀ k ∈ (after 2 [(ofNat 0, one), (ofNat 10, one)]).values.keys, 0 ≤ k ∧ k ≤ 10 := by
    decide
  have hmin : (after 2 [(ofNat 0, one), (ofNat 10, one)]).values.minKey? = some 0 :=
    minKey?_eq_some_iff.mpr
      ⟨by decide, fun k hk => (hrange k (Std.ExtTreeMap.mem_keys.mpr hk)).1⟩
  have hmax : (after 2 [(ofNat 0, one), (ofNat 10, one)]).values.maxKey? = some 10 :=
    maxKey?_eq_some_iff.mpr
      ⟨by decide, fun k hk => (hrange k (Std.ExtTreeMap.mem_keys.mpr hk)).2⟩
  obtain ⟨low, high, hlow, hhigh, -, -, -, hexact⟩ :=
    evicts_farther 2 _ (ofNat 5) negOne hfull htwo hnew
  obtain rfl : ofNat 0 = low := Option.some.inj ((congrArg (Option.map ofInt) hmin).symm.trans hlow)
  obtain rfl : ofNat 10 = high :=
    Option.some.inj ((congrArg (Option.map ofInt) hmax).symm.trans hhigh)
  have htarget : target (ofNat 5) = ofNat 5 := by decide
  have hzero : (ofNat 0).value = (0 : Nat) := value_ofNat (by decide)
  have hfive : (ofNat 5).value = (5 : Nat) := value_ofNat (by decide)
  have hten : (ofNat 10).value = (10 : Nat) := value_ofNat (by decide)
  rw [htarget, hzero, hfive, hten] at hexact
  have hevicts := (hexact (by norm_num) (by norm_num) (by norm_num)).2.mpr (by norm_num)
  exact ⟨hfull, htwo, hnew, hevicts⟩

end Heap

end ErrorFree
