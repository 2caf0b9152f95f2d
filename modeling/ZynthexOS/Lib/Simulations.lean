import ZynthexOS.Lib.Runs

/-! Simulations between two transition systems. A step of the one is matched by some steps of the
other, by none where it shows nothing, and what is seen of a run is the same in both. -/
namespace ZynthexOS.Lib

variable {σ τ α β ω : Type*} {step : σ → α → σ → Prop} {other : τ → β → τ → Prop}

/-- Whatever the first system does from related states, the second can do and show as well. -/
def Simulation (related : σ → τ → Prop) (seen : α → Option ω) (shown : β → ω)
    (step : σ → α → σ → Prop) (other : τ → β → τ → Prop) : Prop :=
  ∀ s t a s', related s t → step s a s' →
    ∃ bs t', Run other t bs t' ∧ bs.map shown = (seen a).toList ∧ related s' t'

/-- A whole run is simulated. -/
theorem Simulation.run {related : σ → τ → Prop} {seen : α → Option ω} {shown : β → ω}
    (simulation : Simulation related seen shown step other) (here : related s t) (taken : Run step s as s') :
    ∃ bs t', Run other t bs t' ∧ bs.map shown = as.filterMap seen ∧ related s' t' := by
  induction taken generalizing t with
  | nil => exact ⟨[], t, .nil, rfl, here⟩
  | @cons s u s' a as first _ ih =>
    obtain ⟨bs, v, matched, shows, there⟩ := simulation s t a u here first
    obtain ⟨cs, t', rest, later, ends⟩ := ih there
    refine ⟨bs ++ cs, t', matched.append rest, ?_, ends⟩
    rw [List.map_append, shows, later, List.filterMap_cons]
    cases seen a <;> rfl

end ZynthexOS.Lib
