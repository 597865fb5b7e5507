import Llvmta.Library.CheckedVector

/-!
# Lists of successors

A nondeterministic operation returns the list of its results, unless an assertion
fails. `Leads` is the transition relation of such an operation, and `forEach` the
loop that collects the results for all elements of a list.
-/

namespace Checked

variable {α β : Type} {ε : Type}

/-- One of the results of an operation. -/
def Leads (f : α → Except ε (List β)) (a : α) (b : β) : Prop := ∃ bs, f a = .ok bs ∧ b ∈ bs

/-- `for (auto &a : as) res.splice(res.end(), f(a));` -/
def forEach (f : α → Except ε (List β)) : List α → Except ε (List β)
  | [] => .ok []
  | a :: as => do
    let bs ← f a
    let rest ← forEach f as
    .ok (bs ++ rest)

variable {f : α → Except ε (List β)} {as : List α} {a : α} {b : β} {bs : List β}

theorem leads_of_eq (h : f a = .ok bs) : Leads f a b ↔ b ∈ bs := by
  simp [Leads, h]

theorem not_leads_of_error {e : ε} (h : f a = .error e) : ¬ Leads f a b := by
  simp [Leads, h]

/-- The loop succeeds if and only if all rounds do. -/
theorem forEach_isOk_iff : (∃ bs, forEach f as = .ok bs) ↔ ∀ a ∈ as, ∃ bs, f a = .ok bs := by
  induction as with
  | nil => simp [forEach]
  | cons a as ih =>
    simp only [List.forall_mem_cons, ← ih]
    constructor
    · rintro ⟨_, h⟩
      obtain ⟨bs, ha, h⟩ := bind_eq_ok.mp h
      obtain ⟨rest, hrest, _⟩ := bind_eq_ok.mp h
      exact ⟨⟨bs, ha⟩, rest, hrest⟩
    · rintro ⟨⟨bs, ha⟩, rest, hrest⟩
      exact ⟨bs ++ rest, by rw [forEach, ha, hrest]; rfl⟩

theorem mem_forEach (h : forEach f as = .ok bs) : b ∈ bs ↔ ∃ a ∈ as, Leads f a b := by
  induction as generalizing bs with
  | nil =>
    cases h
    simp
  | cons a as ih =>
    obtain ⟨cs, ha, h⟩ := bind_eq_ok.mp h
    obtain ⟨rest, hrest, h⟩ := bind_eq_ok.mp h
    cases h
    rw [List.mem_append, ih hrest, List.exists_mem_cons_iff, leads_of_eq ha]

/-- An operation on all results of another one, where no round fails. -/
theorem leads_bind_forEach {γ : Type} {g : γ → Except ε (List α)} {c : γ}
    (hf : ∀ a, Leads g c a → ∃ bs, f a = .ok bs) :
    (∃ bs, (g c >>= forEach f) = .ok bs ∧ b ∈ bs) ↔ ∃ a, Leads g c a ∧ Leads f a b := by
  cases hg : g c with
  | error e =>
    constructor
    · rintro ⟨_, h, _⟩
      cases h
    · rintro ⟨a, ha, _⟩
      exact absurd ha (not_leads_of_error hg)
  | ok as =>
    simp only [leads_of_eq hg] at hf ⊢
    obtain ⟨bs, hbs⟩ := forEach_isOk_iff.mpr hf
    rw [ok_bind, ← mem_forEach hbs]
    constructor
    · rintro ⟨bs', hbs', hb⟩
      cases hbs.symm.trans hbs'
      exact hb
    · intro hb
      exact ⟨bs, hbs, hb⟩

/-- The result of an operation at a position, if there is one. -/
def nthSuccessor (f : α → Except ε (List α)) (n : ℕ) (a : α) : α :=
  match f a with
  | .ok as => as.getD n a
  | .error _ => a

def hasNthSuccessor (f : α → Except ε (List α)) (n : ℕ) (a : α) : Bool :=
  match f a with
  | .ok as => decide (n < as.length)
  | .error _ => false

theorem leads_nthSuccessor {f : α → Except ε (List α)} {n : ℕ}
    (h : hasNthSuccessor f n a = true) : Leads f a (nthSuccessor f n a) := by
  unfold hasNthSuccessor at h
  unfold nthSuccessor
  cases hf : f a with
  | error e => simp [hf] at h
  | ok as =>
    rw [hf] at h
    have hlt : n < as.length := of_decide_eq_true h
    have hget : as.getD n a = as[n] := by simp [List.getD, List.getElem?_eq_getElem hlt]
    refine ⟨as, hf, ?_⟩
    dsimp only
    rw [hget]
    exact List.getElem_mem hlt

/-- The result of repeated operations, each at its position. -/
def successorAlong (f : α → Except ε (List α)) : List ℕ → α → Option α
  | [], a => some a
  | n :: ns, a =>
    if hasNthSuccessor f n a then successorAlong f ns (nthSuccessor f n a) else none

theorem successorAlong_invariant {f : α → Except ε (List α)} {I : α → Prop} {a b : α}
    {ns : List ℕ} (hf : ∀ a b, I a → Leads f a b → I b) (ha : I a)
    (h : successorAlong f ns a = some b) : I b := by
  induction ns generalizing a with
  | nil =>
    cases h
    exact ha
  | cons n ns ih =>
    unfold successorAlong at h
    split at h
    · next hn => exact ih (hf a _ ha (leads_nthSuccessor hn)) h
    · cases h

/-- One choice is a transition. -/
theorem leads_of_successorAlong {f : α → Except ε (List α)} {a b : α} {n : ℕ}
    (h : successorAlong f [n] a = some b) : Leads f a b := by
  simp only [successorAlong] at h
  split at h
  · next hn =>
    cases h
    exact leads_nthSuccessor hn
  · cases h

end Checked
