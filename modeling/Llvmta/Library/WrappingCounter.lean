import Mathlib.Data.List.Range
import Mathlib.Tactic

/-!
# Loops over a counter that wraps around

The loop `while (i <= up && !stop(r)) { r = body(i, r); i += step; }`, whose
counter is a number below `N`. It runs in order when it visits ascending numbers
and ends. A number above `up` ends it; so the step behind the last number up to
`up` has to stay below `N`, or the loop has to be left before.
-/

namespace Wrapping

variable {ρ ε : Type*} (N step up : ℕ) (stop : ρ → Prop) [DecidablePred stop]
  (body : ℕ → ρ → Except ε ρ)

/-- The loop, with the error `out` when it does not end within `fuel` rounds. -/
def loop (out : ε) : ℕ → ℕ → ρ → Except ε ρ
  | 0, _, _ => .error out
  | fuel + 1, i, r =>
    if i ≤ up ∧ ¬ stop r then body i r >>= fun r' => loop out fuel ((i + step) % N) r' else .ok r

/-- The numbers at which the body runs within `fuel` rounds. -/
def visits : ℕ → ℕ → ρ → List ℕ
  | 0, _, _ => []
  | fuel + 1, i, r =>
    if i ≤ up ∧ ¬ stop r then
      match body i r with
      | .ok r' => i :: visits fuel ((i + step) % N) r'
      | .error _ => [i]
    else []

/-- The loop ends, having visited ascending numbers. -/
def Orderly (i : ℕ) (r : ρ) : Prop :=
  ∃ fuel, (visits N step up stop body fuel i r).length < fuel ∧
    (visits N step up stop body fuel i r).Pairwise (· < ·)

/-- Running the body at these numbers in turn, the loop is left by `stop` or an error. -/
def Halts : List ℕ → ρ → Prop
  | [], r => stop r
  | i :: l, r => stop r ∨ ∀ r', body i r = .ok r' → Halts l r'

variable {N step up stop body} {i : ℕ} {r r' : ρ}

theorem visits_of_stop (h : up < i ∨ stop r) (fuel : ℕ) :
    visits N step up stop body fuel i r = [] := by
  cases fuel with
  | zero => rfl
  | succ fuel =>
    unfold visits
    rw [if_neg]
    rintro ⟨hle, hgo⟩
    exact h.elim (by omega) hgo

theorem visits_succ (hle : i ≤ up) (hgo : ¬ stop r) (hbody : body i r = .ok r') (fuel : ℕ) :
    visits N step up stop body (fuel + 1) i r =
      i :: visits N step up stop body fuel ((i + step) % N) r' := by
  rw [visits, if_pos ⟨hle, hgo⟩, hbody]

theorem visits_error (hle : i ≤ up) (hgo : ¬ stop r) {e : ε} (hbody : body i r = .error e)
    (fuel : ℕ) : visits N step up stop body (fuel + 1) i r = [i] := by
  rw [visits, if_pos ⟨hle, hgo⟩, hbody]

/-- Ascending visits are not below the first one. -/
theorem le_of_mem_visits {fuel j : ℕ}
    (hp : (visits N step up stop body fuel i r).Pairwise (· < ·))
    (hj : j ∈ visits N step up stop body fuel i r) : i ≤ j := by
  cases fuel with
  | zero => cases hj
  | succ fuel =>
    by_cases hgo : i ≤ up ∧ ¬ stop r
    · cases hbody : body i r with
      | ok r' =>
        rw [visits_succ hgo.1 hgo.2 hbody] at hp hj
        rcases List.mem_cons.mp hj with rfl | hj
        · exact le_rfl
        · exact ((List.pairwise_cons.mp hp).1 j hj).le
      | error e =>
        rw [visits_error hgo.1 hgo.2 hbody] at hj
        exact (List.mem_singleton.mp hj).ge
    · rw [visits, if_neg hgo] at hj
      cases hj

/-! ## One round -/

theorem orderly_of_stop (h : up < i ∨ stop r) : Orderly N step up stop body i r := by
  refine ⟨1, ?_, ?_⟩
  · rw [visits_of_stop h]
    exact Nat.one_pos
  · rw [visits_of_stop h]
    exact List.Pairwise.nil

theorem orderly_of_error (hle : i ≤ up) (hgo : ¬ stop r) {e : ε} (hbody : body i r = .error e) :
    Orderly N step up stop body i r := by
  refine ⟨2, ?_, ?_⟩
  · rw [visits_error hle hgo hbody]
    exact Nat.one_lt_two
  · rw [visits_error hle hgo hbody]
    exact List.pairwise_singleton _ _

/-- A round that does not wrap around leaves the order to the next ones. -/
theorem orderly_forward (hle : i ≤ up) (hgo : ¬ stop r) (hbody : body i r = .ok r')
    (hnext : i < (i + step) % N) :
    Orderly N step up stop body i r ↔ Orderly N step up stop body ((i + step) % N) r' := by
  constructor
  · rintro ⟨fuel, hlen, hp⟩
    cases fuel with
    | zero => exact absurd hlen (Nat.not_lt_zero _)
    | succ fuel =>
      rw [visits_succ hle hgo hbody] at hlen hp
      exact ⟨fuel, Nat.lt_of_succ_lt_succ hlen, (List.pairwise_cons.mp hp).2⟩
  · rintro ⟨fuel, hlen, hp⟩
    refine ⟨fuel + 1, ?_, ?_⟩
    · rw [visits_succ hle hgo hbody]
      exact Nat.succ_lt_succ hlen
    · rw [visits_succ hle hgo hbody]
      exact List.pairwise_cons.mpr ⟨fun j hj => hnext.trans_le (le_of_mem_visits hp hj), hp⟩

/-- A round that does not advance has to be the last one. -/
theorem orderly_back (hle : i ≤ up) (hgo : ¬ stop r) (hbody : body i r = .ok r')
    (hnext : (i + step) % N ≤ i) : Orderly N step up stop body i r ↔ stop r' := by
  constructor
  · rintro ⟨fuel, hlen, hp⟩
    cases fuel with
    | zero => exact absurd hlen (Nat.not_lt_zero _)
    | succ fuel =>
      rw [visits_succ hle hgo hbody] at hlen hp
      by_contra hgo'
      cases fuel with
      | zero => exact absurd (Nat.lt_of_succ_lt_succ hlen) (Nat.not_lt_zero _)
      | succ fuel =>
        have hmem : (i + step) % N ∈ visits N step up stop body (fuel + 1) ((i + step) % N) r' := by
          unfold visits
          rw [if_pos ⟨hnext.trans hle, hgo'⟩]
          split
          · exact List.mem_cons_self
          · exact List.mem_singleton_self _
        have := (List.pairwise_cons.mp hp).1 _ hmem
        omega
  · intro hstop
    refine ⟨2, ?_, ?_⟩
    · rw [visits_succ hle hgo hbody, visits_of_stop (.inr hstop)]
      exact Nat.one_lt_two
    · rw [visits_succ hle hgo hbody, visits_of_stop (.inr hstop)]
      exact List.pairwise_singleton _ _

/-! ## All rounds -/

theorem mod_eq_of_wrap {a : ℕ} (ha : N ≤ a) (ha' : a < 2 * N) : a % N = a - N := by
  rw [Nat.mod_eq_sub_mod ha, Nat.mod_eq_of_lt (by omega)]

/-- The loop runs in order exactly when the first number behind `up` does not wrap
around, or the loop is left within the numbers up to `up`. -/
theorem orderly_iff (hstep : step < N) (hup : up < N) (hle : i ≤ up) :
    Orderly N step up stop body i r ↔
      (0 < step ∧ i + ((up - i) / step + 1) * step < N) ∨
        Halts stop body (List.range' i ((up - i) / step + 1) step) r := by
  generalize hn : (up - i) / step = n
  induction n generalizing i r with
  | zero =>
    have hlast : 0 < step → up < i + step := by
      intro hpos
      rcases (Nat.div_eq_zero_iff).mp hn with h0 | hlt
      · omega
      · omega
    by_cases hgo : stop r
    · exact ⟨fun _ => .inr (.inl hgo), fun _ => orderly_of_stop (.inr hgo)⟩
    cases hbody : body i r with
    | error e =>
      refine ⟨fun _ => .inr (.inr fun r' hr' => ?_), fun _ => orderly_of_error hle hgo hbody⟩
      rw [hbody] at hr'
      cases hr'
    | ok r' =>
      have hhalts : Halts stop body (List.range' i (0 + 1) step) r ↔ stop r' := by
        simp [List.range', Halts, hgo, hbody]
      rw [hhalts, Nat.zero_add, Nat.one_mul]
      by_cases hfits : 0 < step ∧ i + step < N
      · have hmod : (i + step) % N = i + step := Nat.mod_eq_of_lt hfits.2
        rw [orderly_forward hle hgo hbody (by omega), hmod]
        exact ⟨fun _ => .inl hfits, fun _ => orderly_of_stop (.inl (hlast hfits.1))⟩
      · have hback : (i + step) % N ≤ i := by
          by_cases hpos : 0 < step
          · rw [mod_eq_of_wrap (by omega) (by omega)]
            omega
          · exact (Nat.mod_le _ _).trans (by omega)
        rw [orderly_back hle hgo hbody hback]
        exact ⟨.inr, fun h => h.resolve_left hfits⟩
  | succ n ih =>
    have hpos : 0 < step := by
      rcases Nat.eq_zero_or_pos step with h0 | hpos
      · simp [h0] at hn
      · exact hpos
    have hmul : (n + 1) * step ≤ up - i := hn ▸ Nat.div_mul_le_self _ _
    have hsum : (n + 1) * step = n * step + step := Nat.succ_mul n step
    have hnext : i + step ≤ up := by omega
    have hn' : (up - (i + step)) / step = n := by
      have hsub := Nat.sub_mul_div (up - i) step 1
      rw [Nat.mul_one, hn] at hsub
      rw [← Nat.sub_sub, hsub, Nat.add_sub_cancel]
    have hmod : (i + step) % N = i + step := Nat.mod_eq_of_lt (by omega)
    have hend : i + (n + 1 + 1) * step = i + step + (n + 1) * step := by ring
    have hvalues : List.range' i (n + 1 + 1) step = i :: List.range' (i + step) (n + 1) step := rfl
    by_cases hgo : stop r
    · exact ⟨fun _ => .inr (.inl hgo), fun _ => orderly_of_stop (.inr hgo)⟩
    cases hbody : body i r with
    | error e =>
      refine ⟨fun _ => .inr (.inr fun r' hr' => ?_), fun _ => orderly_of_error hle hgo hbody⟩
      rw [hbody] at hr'
      cases hr'
    | ok r' =>
      have hhalts : Halts stop body (List.range' i (n + 1 + 1) step) r ↔
          Halts stop body (List.range' (i + step) (n + 1) step) r' := by
        rw [hvalues]
        simp [Halts, hgo, hbody]
      rw [orderly_forward hle hgo hbody (by omega), hmod, ih hnext hn', hhalts, hend]

/-! ## The result -/

/-- A loop that ends has run the body at the visited numbers in turn. -/
theorem loop_eq_foldlM (out : ε) {fuel : ℕ}
    (hlen : (visits N step up stop body fuel i r).length < fuel) :
    loop N step up stop body out fuel i r =
      (visits N step up stop body fuel i r).foldlM (fun r j => body j r) r := by
  induction fuel generalizing i r with
  | zero => exact absurd hlen (Nat.not_lt_zero _)
  | succ fuel ih =>
    by_cases hgo : i ≤ up ∧ ¬ stop r
    · cases hbody : body i r with
      | ok r' =>
        rw [visits_succ hgo.1 hgo.2 hbody] at hlen ⊢
        rw [loop, if_pos hgo, hbody, List.foldlM_cons, hbody]
        exact ih (Nat.lt_of_succ_lt_succ hlen)
      | error e =>
        rw [visits_error hgo.1 hgo.2 hbody, loop, if_pos hgo, List.foldlM_cons, hbody]
        rfl
    · rw [visits, if_neg hgo, loop, if_neg hgo]
      rfl

/-- Fuel beyond the number of visits changes nothing. -/
theorem visits_of_length_lt {fuel n : ℕ}
    (hlen : (visits N step up stop body fuel i r).length < fuel)
    (hn : (visits N step up stop body fuel i r).length < n) :
    visits N step up stop body n i r = visits N step up stop body fuel i r := by
  induction fuel generalizing i r n with
  | zero => exact absurd hlen (Nat.not_lt_zero _)
  | succ fuel ih =>
    obtain ⟨n, rfl⟩ : ∃ m, n = m + 1 := ⟨n - 1, by omega⟩
    by_cases hgo : i ≤ up ∧ ¬ stop r
    · cases hbody : body i r with
      | ok r' =>
        rw [visits_succ hgo.1 hgo.2 hbody] at hlen hn ⊢
        rw [visits_succ hgo.1 hgo.2 hbody,
          ih (Nat.lt_of_succ_lt_succ hlen) (Nat.lt_of_succ_lt_succ hn)]
      | error e => rw [visits_error hgo.1 hgo.2 hbody, visits_error hgo.1 hgo.2 hbody]
    · rw [visits, visits, if_neg hgo, if_neg hgo]

theorem le_up_of_mem_visits {fuel j : ℕ} (hj : j ∈ visits N step up stop body fuel i r) :
    j ≤ up := by
  induction fuel generalizing i r with
  | zero => cases hj
  | succ fuel ih =>
    by_cases hgo : i ≤ up ∧ ¬ stop r
    · cases hbody : body i r with
      | ok r' =>
        rw [visits_succ hgo.1 hgo.2 hbody] at hj
        rcases List.mem_cons.mp hj with rfl | hj
        · exact hgo.1
        · exact ih hj
      | error e =>
        rw [visits_error hgo.1 hgo.2 hbody] at hj
        exact List.mem_singleton.mp hj ▸ hgo.1
    · rw [visits, if_neg hgo] at hj
      cases hj

/-- A loop in order ends within `N + 1` rounds, having run the body at ascending
numbers in turn. -/
theorem Orderly.loop_eq (h : Orderly N step up stop body i r) (hup : up < N) (out : ε)
    {fuel : ℕ} (hfuel : N < fuel) : ∃ l : List ℕ, l.Pairwise (· < ·) ∧ (∀ j ∈ l, i ≤ j ∧ j ≤ up) ∧
      loop N step up stop body out fuel i r = l.foldlM (fun r j => body j r) r := by
  obtain ⟨n, hlen, hp⟩ := h
  have hsub : (visits N step up stop body n i r).Subperm (List.range N) := by
    apply List.subperm_of_subset (hp.imp fun h => h.ne)
    intro j hj
    exact List.mem_range.mpr ((le_up_of_mem_visits hj).trans_lt hup)
  have hle := hsub.length_le
  rw [List.length_range] at hle
  have hsame := visits_of_length_lt hlen (hle.trans_lt hfuel)
  refine ⟨_, hp, fun j hj => ⟨le_of_mem_visits hp hj, le_up_of_mem_visits hj⟩, ?_⟩
  rw [← hsame]
  apply loop_eq_foldlM
  rw [hsame]
  exact hle.trans_lt hfuel

/-- A loop that keeps an invariant under which it goes on does not end. -/
theorem loop_of_invariant {I : ℕ → ρ → Prop} (hgo : ∀ i r, I i r → i ≤ up ∧ ¬ stop r)
    (hbody : ∀ i r, I i r → ∃ r', body i r = .ok r' ∧ I ((i + step) % N) r') (out : ε)
    (hi : I i r) (fuel : ℕ) : loop N step up stop body out fuel i r = .error out := by
  induction fuel generalizing i r with
  | zero => rfl
  | succ fuel ih =>
    obtain ⟨r', hr', hI⟩ := hbody i r hi
    rw [loop, if_pos (hgo i r hi), hr']
    exact ih hI

end Wrapping
