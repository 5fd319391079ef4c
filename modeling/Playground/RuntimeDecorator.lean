import Playground.Lib.CInt

/-!
# Prices of decorated items (`patterns/software_design/runtime_decorator.cpp`)

An item is a coffee or a decorator around another item. Every price is an
`int`, so a discount multiplies before it divides in 32 bits. Copies of an item
are deep, and an item is a value here; names are left out.
-/

namespace Playground.RuntimeDecorator

inductive Item
  | coffee (cents : Int)
  | withMilk (item : Item)
  | withSugar (item : Item)
  | withDiscount (percent : Int) (item : Item)
  deriving DecidableEq, Repr

/-- `none` when an `int` operation of this call, or of one it makes, overflows. -/
def priceCents : Item → Option Int
  | .coffee cents => some cents
  | .withMilk item => do CInt.fit ((← priceCents item) + 50)
  | .withSugar item => do CInt.fit ((← priceCents item) + 25)
  | .withDiscount percent item => do
    let price ← priceCents item
    let factor ← CInt.fit (100 - percent)
    let product ← CInt.fit (price * factor)
    CInt.fit (product.tdiv 100)

/-! ## Prices in the integers -/

def Valid : Item → Prop
  | .coffee cents => 0 ≤ cents
  | .withMilk item => Valid item
  | .withSugar item => Valid item
  | .withDiscount percent item => (0 ≤ percent ∧ percent ≤ 100) ∧ Valid item

def undiscounted : Item → Int
  | .coffee cents => cents
  | .withMilk item => undiscounted item + 50
  | .withSugar item => undiscounted item + 25
  | .withDiscount _ item => undiscounted item

/-- The price without bounds: a discount rounds down to the cent. -/
def exact : Item → Int
  | .coffee cents => cents
  | .withMilk item => exact item + 50
  | .withSugar item => exact item + 25
  | .withDiscount percent item => exact item * (100 - percent) / 100

/-- Every discounted amount, times the percentage that is left, is an `int`. -/
def ProductsFit : Item → Prop
  | .coffee _ => True
  | .withMilk item => ProductsFit item
  | .withSugar item => ProductsFit item
  | .withDiscount percent item => exact item * (100 - percent) < 2 ^ 31 ∧ ProductsFit item

theorem discount_bounds {x percent : Int} (hx : 0 ≤ x) (hp : 0 ≤ percent ∧ percent ≤ 100) :
    0 ≤ x * (100 - percent) ∧ x * (100 - percent) ≤ x * 100 := by
  have hfactor : 0 ≤ 100 - percent := by omega
  have hle : 100 - percent ≤ 100 := by omega
  exact ⟨Int.mul_nonneg hx hfactor, Int.mul_le_mul_of_nonneg_left hle hx⟩

theorem exact_bounds {item : Item} (hv : Valid item) : 0 ≤ exact item ∧ exact item ≤ undiscounted item := by
  induction item with
  | coffee cents => exact ⟨hv, Int.le_refl cents⟩
  | withMilk item ih | withSugar item ih =>
    have hitem := ih hv
    simp only [exact, undiscounted]
    omega
  | withDiscount percent item ih =>
    obtain ⟨hnonneg, hle⟩ := ih hv.2
    obtain ⟨hprod, hprod_le⟩ := discount_bounds hnonneg hv.1
    simp only [exact, undiscounted]
    omega

theorem ProductsFit.of_small {item : Item} (hv : Valid item) (h : undiscounted item * 100 < 2 ^ 31) :
    ProductsFit item := by
  induction item with
  | coffee cents => trivial
  | withMilk item ih | withSugar item ih =>
    simp only [undiscounted] at h
    exact ih hv (by omega)
  | withDiscount percent item ih =>
    obtain ⟨hnonneg, hle⟩ := exact_bounds hv.2
    obtain ⟨-, hprod_le⟩ := discount_bounds hnonneg hv.1
    simp only [undiscounted] at h
    exact ⟨by omega, ih hv.2 h⟩

/-! ## Prices in 32 bits -/

theorem surcharge_eq {item : Item} {cents : Int} (hv : Valid item) (hc : 0 ≤ cents)
    (hu : undiscounted item + cents < 2 ^ 31) : CInt.fit (exact item + cents) = some (exact item + cents) := by
  obtain ⟨hnonneg, hle⟩ := exact_bounds hv
  exact CInt.fit_of (by omega) (by omega)

theorem priceCents_eq_exact {item : Item} (hv : Valid item) (hu : undiscounted item < 2 ^ 31)
    (hfit : ProductsFit item) : priceCents item = some (exact item) := by
  induction item with
  | coffee cents => rfl
  | withMilk item ih | withSugar item ih =>
    simp only [undiscounted] at hu
    have hitem := ih hv (by omega) hfit
    simp only [priceCents, exact, hitem, Option.bind_eq_bind, Option.bind_some]
    exact surcharge_eq hv (by decide) hu
  | withDiscount percent item ih =>
    obtain ⟨hnonneg, hle⟩ := exact_bounds hv.2
    obtain ⟨hprod, hprod_le⟩ := discount_bounds hnonneg hv.1
    obtain ⟨⟨hp, hp'⟩, hv⟩ := hv
    simp only [undiscounted] at hu
    have hitem := ih hv hu hfit.2
    have hfactor : CInt.fit (100 - percent) = some (100 - percent) := CInt.fit_of (by omega) (by omega)
    have hproduct := CInt.fit_of (by omega) hfit.1
    simp only [priceCents, exact, hitem, hfactor, hproduct, Option.bind_eq_bind, Option.bind_some]
    rw [Int.tdiv_eq_ediv_of_nonneg hprod]
    exact CInt.fit_of (by omega) (by omega)

theorem productsFit_of_priceCents {item : Item} {p : Int} (hv : Valid item) (hu : undiscounted item < 2 ^ 31)
    (h : priceCents item = some p) : ProductsFit item := by
  induction item generalizing p with
  | coffee cents => trivial
  | withMilk item ih | withSugar item ih =>
    obtain ⟨q, hq, -⟩ := Option.bind_eq_some_iff.mp h
    simp only [undiscounted] at hu
    exact ih hv (by omega) hq
  | withDiscount percent item ih =>
    obtain ⟨q, hq, h⟩ := Option.bind_eq_some_iff.mp h
    obtain ⟨factor, hfactor, h⟩ := Option.bind_eq_some_iff.mp h
    obtain ⟨product, hproduct, -⟩ := Option.bind_eq_some_iff.mp h
    have hfit := ih hv.2 hu hq
    have hitem := priceCents_eq_exact hv.2 hu hfit
    obtain rfl := Option.some.inj (hq.symm.trans hitem)
    obtain rfl := (CInt.fit_eq_some hfactor).1
    exact ⟨(CInt.fit_eq_some hproduct).2.2, hfit⟩

/-- **Prices** of decorated items stay in range exactly when all products do. -/
theorem priceCents_iff (item : Item) (hv : Valid item) (hu : undiscounted item < 2 ^ 31) :
    (∃ p, priceCents item = some p ∧ 0 ≤ p ∧ p ≤ undiscounted item) ↔ ProductsFit item := by
  constructor
  · rintro ⟨p, hp, -⟩
    exact productsFit_of_priceCents hv hu hp
  · intro hfit
    exact ⟨exact item, priceCents_eq_exact hv hu hfit, exact_bounds hv⟩

theorem priceCents_iff_deal :
    ∃ p, priceCents (.withDiscount 10 (.withMilk (.coffee 350))) = some p ∧ 0 ≤ p ∧ p ≤ 400 :=
  have hv : Valid (.withDiscount 10 (.withMilk (.coffee 350))) := ⟨by decide, Int.le_of_lt (by decide)⟩
  (priceCents_iff _ hv (by decide)).mpr (ProductsFit.of_small hv (by decide))

/-- A tenth off 300000 dollars. -/
theorem priceCents_large :
    ¬ ∀ item, Valid item → undiscounted item < 2 ^ 31 →
      ∃ p, priceCents item = some p ∧ 0 ≤ p ∧ p ≤ undiscounted item := by
  intro h
  have hv : Valid (.withDiscount 10 (.coffee 30000000)) := ⟨by decide, Int.le_of_lt (by decide)⟩
  have hnone : priceCents (.withDiscount 10 (.coffee 30000000)) = none := by decide
  obtain ⟨p, hp, -⟩ := h _ hv (by decide)
  exact nomatch hnone.symm.trans hp

end Playground.RuntimeDecorator
