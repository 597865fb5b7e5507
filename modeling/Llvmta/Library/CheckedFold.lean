import Llvmta.Library.CheckedVector

/-!
# Loops that may stop without a result

What a loop over a list adds to its state is what its iterations add: facts that come to
hold, and numbers that grow.
-/

namespace Checked

variable {α σ : Type*} {l : List α}

/-- A fact that holds after a loop held before or is made true by an iteration. -/
theorem foldlM_adds {step : σ → α → Except Fault σ} {H : σ → Prop} {A : α → Prop}
    (hstep : ∀ s a s', step s a = .ok s' → (H s' ↔ H s ∨ A a)) {s s' : σ}
    (h : l.foldlM step s = .ok s') : H s' ↔ H s ∨ ∃ a ∈ l, A a := by
  induction l generalizing s with
  | nil =>
    cases h
    simp
  | cons a l ih =>
    rw [List.foldlM_cons] at h
    obtain ⟨s₁, h₁, h⟩ := bind_eq_ok.mp h
    rw [ih h, hstep s a s₁ h₁]
    simp only [List.mem_cons, exists_eq_or_imp, or_assoc]

/-- A number that each iteration increases is increased by their sum. -/
theorem foldlM_sum {step : σ → α → Except Fault σ} {F : σ → ℤ} {A : α → ℤ}
    (hstep : ∀ s a s', step s a = .ok s' → F s' = F s + A a) {s s' : σ}
    (h : l.foldlM step s = .ok s') : F s' = F s + (l.map A).sum := by
  induction l generalizing s with
  | nil =>
    cases h
    simp
  | cons a l ih =>
    rw [List.foldlM_cons] at h
    obtain ⟨s₁, h₁, h⟩ := bind_eq_ok.mp h
    rw [ih h, hstep s a s₁ h₁, List.map_cons, List.sum_cons, add_assoc]

/-- A loop that returns has made all its iterations. -/
theorem foldlM_forall {step : σ → α → Except Fault σ} {A : α → Prop}
    (hstep : ∀ s a s', step s a = .ok s' → A a) {s s' : σ} (h : l.foldlM step s = .ok s') :
    ∀ a ∈ l, A a := by
  induction l generalizing s with
  | nil => exact fun a ha => nomatch ha
  | cons a l ih =>
    rw [List.foldlM_cons] at h
    obtain ⟨s₁, h₁, h⟩ := bind_eq_ok.mp h
    intro b hb
    rcases List.mem_cons.mp hb with rfl | hb
    · exact hstep s b s₁ h₁
    · exact ih h b hb

/-- What each iteration preserves holds after the loop. -/
theorem foldlM_invariant {step : σ → α → Except Fault σ} {H : σ → Prop}
    (hstep : ∀ s a s', a ∈ l → H s → step s a = .ok s' → H s') {s s' : σ} (hs : H s)
    (h : l.foldlM step s = .ok s') : H s' := by
  induction l generalizing s with
  | nil =>
    cases h
    exact hs
  | cons a l ih =>
    rw [List.foldlM_cons] at h
    obtain ⟨s₁, h₁, h⟩ := bind_eq_ok.mp h
    apply ih (fun s a s' ha => hstep s a s' (List.mem_cons_of_mem _ ha)) _ h
    exact hstep s a s₁ List.mem_cons_self hs h₁

/-- A loop returns if each iteration does and keeps what the later ones rely on. -/
theorem foldlM_returns {step : σ → α → Except Fault σ} {I : σ → Prop}
    (hstep : ∀ s, ∀ a ∈ l, I s → ∃ s', step s a = .ok s' ∧ I s') {s : σ} (hs : I s) :
    ∃ s', l.foldlM step s = .ok s' ∧ I s' := by
  induction l generalizing s with
  | nil => exact ⟨s, rfl, hs⟩
  | cons a l ih =>
    obtain ⟨s₁, h₁, hs₁⟩ := hstep s a List.mem_cons_self hs
    obtain ⟨s', h', hs'⟩ := ih (fun s b hb => hstep s b (List.mem_cons_of_mem a hb)) hs₁
    rw [List.foldlM_cons, h₁, ok_bind]
    exact ⟨s', h', hs'⟩

end Checked
