import ShardLog.Foundation.ByteReader

/-!
# Foundation - Fallible folds

Loops that thread a state through a list and stop at the first error.
-/

namespace Folds

open ByteReader

variable {ε α σ : Type}

/-- Each step establishes a fact about its item and none destroys one, so all hold at the end. -/
theorem foldlM_accumulates {step : σ → α → Except ε σ} (invariant : σ → Prop)
    (extends_ : σ → σ → Prop) (fact : σ → α → Prop)
    (hrefl : ∀ s, extends_ s s) (htrans : ∀ r s t, extends_ r s → extends_ s t → extends_ r t)
    (hkeep : ∀ s t a, extends_ s t → fact s a → fact t a) {items : List α}
    (hstep : ∀ s a t, a ∈ items → invariant s → step s a = .ok t →
      invariant t ∧ extends_ s t ∧ fact t a) {s t : σ} (hs : invariant s)
    (h : items.foldlM step s = .ok t) :
    invariant t ∧ extends_ s t ∧ ∀ a ∈ items, fact t a := by
  induction items generalizing s t with
  | nil =>
    cases h
    exact ⟨hs, hrefl s, by simp⟩
  | cons first rest ih =>
    rcases bind_eq_ok_iff.mp h with ⟨next, hnext, h⟩
    rcases hstep s first next List.mem_cons_self hs hnext with ⟨hinvariant, hextends, hfact⟩
    rcases ih (fun r a u ha => hstep r a u (List.mem_cons_of_mem _ ha)) hinvariant h with
      ⟨hfinal, hextends', hfacts⟩
    refine ⟨hfinal, htrans s next t hextends hextends', ?_⟩
    intro a ha
    rcases List.mem_cons.mp ha with rfl | hin
    · exact hkeep next t a hextends' hfact
    · exact hfacts a hin

end Folds
