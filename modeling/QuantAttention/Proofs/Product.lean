import Mathlib.Algebra.Order.BigOperators.Group.List
import Mathlib.Data.List.Infix
import QuantAttention.Size

/-! Products that are formed from the left. A product may be a size although one of its partial
products is none: a later factor may be zero. -/

namespace QuantAttention

/-- The product of the factors can be formed from the left: every partial product is a size. -/
def Formable (factors : List Nat) : Prop := ∀ first ∈ factors.inits, first.prod < Size.limit

instance (factors : List Nat) : Decidable (Formable factors) :=
  inferInstanceAs (Decidable (∀ first ∈ factors.inits, first.prod < Size.limit))

/-- The whole product is the last of the partial products. -/
theorem Formable.prod_lt {factors : List Nat} (h : Formable factors) : factors.prod < Size.limit :=
  h factors ((List.mem_inits _ _).2 (List.prefix_refl factors))

/-- Without a zero the whole product is the greatest, so the partial ones need not be looked at. -/
theorem formable_of_pos {factors : List Nat} (hPositive : ∀ n ∈ factors, 0 < n)
    (hProd : factors.prod < Size.limit) : Formable factors := by
  intro first hFirst
  obtain ⟨rest, rfl⟩ := (List.mem_inits _ _).1 hFirst
  have hRest : 0 < rest.prod :=
    List.prod_pos_iff_forall_pos_nat.2 fun n hn => hPositive n (List.mem_append_right _ hn)
  rw [List.prod_append] at hProd
  exact Nat.lt_of_le_of_lt (Nat.le_mul_of_pos_right _ hRest) hProd

theorem formable_singleton (a : Nat) : Formable [a] ↔ a < Size.limit := by
  simp [Formable, Size.limit]

/-- Factors are multiplied from the left, so the first two may be replaced by their product. -/
theorem formable_cons_cons (a b : Nat) (rest : List Nat) :
    Formable (a :: b :: rest) ↔ a < Size.limit ∧ Formable (a * b :: rest) := by
  simp only [Formable, List.inits_cons, List.map_cons, List.map_map, List.forall_mem_cons,
    List.forall_mem_map, Function.comp_apply, List.prod_cons, List.prod_nil, Nat.mul_assoc,
    Nat.mul_one]
  tauto

namespace Size

/-- A product that could be formed has had all its partial products formed. -/
theorem exists_eval_of_foldl_mul {factors : List Nat} {start : Size} {n : Nat}
    (h : (factors.foldl (fun (product : Size) (d : Nat) => product * (d : Size)) start).eval =
      .ok n) : ∃ m, start.eval = .ok m := by
  induction factors generalizing start with
  | nil => exact ⟨n, h⟩
  | cons d rest ih =>
      obtain ⟨m, hm⟩ := ih h
      obtain ⟨a, -, ha, -⟩ := Size.eval_mul_eq_ok.1 hm
      exact ⟨a, ha⟩

/-- Multiplying factors onto a product of two can be done exactly where all partial products are
sizes, and comes to the product of all. -/
theorem eval_foldl_mul_eq_ok (factors : List Nat) {a b n : Nat} :
    (factors.foldl (fun (product : Size) (d : Nat) => product * (d : Size))
        (.ofNat a * .ofNat b)).eval = .ok n ↔
      Formable (a * b :: factors) ∧ n = (a * b :: factors).prod := by
  induction factors generalizing a b with
  | nil =>
      simp only [List.foldl_nil, eval_mul_eq_ok, eval_ofNat, Except.ok.injEq, exists_and_left,
        exists_eq_left', formable_singleton, List.prod_singleton]
  | cons d rest ih =>
      rw [List.foldl_cons, formable_cons_cons, List.prod_cons, List.prod_cons, ← Nat.mul_assoc,
        ← List.prod_cons]
      rcases Nat.lt_or_ge (a * b) limit with hRange | hLarge
      · rw [ofNat_mul hRange, ih]
        exact ⟨fun h => ⟨⟨hRange, h.1⟩, h.2⟩, fun h => ⟨h.1.2, h.2⟩⟩
      · constructor
        · intro h
          obtain ⟨_, hAll⟩ := exists_eval_of_foldl_mul h
          obtain ⟨_, _, hFirst, -⟩ := eval_mul_eq_ok.1 hAll
          obtain ⟨_, _, ⟨⟩, ⟨⟩, hRange, -⟩ := eval_mul_eq_ok.1 hFirst
          exact absurd hRange (Nat.not_lt.2 hLarge)
        · rintro ⟨⟨hRange, -⟩, -⟩
          exact absurd hRange (Nat.not_lt.2 hLarge)

end Size

end QuantAttention
