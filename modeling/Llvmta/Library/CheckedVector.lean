import Mathlib.Data.List.Basic
import Mathlib.Tactic

/-!
# Checked vectors

Indexed reads and writes that report an index outside the vector instead of
leaving its effect undefined. A loop over an indexed vector is reasoned about
by splitting the vector at the cursor: `read_append` and `write_append` are the
only facts about indices that such a proof needs.
-/

/-- The ways a run can stop without a result. -/
inductive Fault where
  | assertion (message : String)
  | outOfBounds
  | divergence
  deriving DecidableEq, Repr

/-- An executed assertion. -/
def assertThat (condition : Bool) (message : String) : Except Fault Unit :=
  if condition then .ok () else .error (.assertion message)

@[simp] theorem assertThat_true (message : String) : assertThat true message = .ok () := rfl

theorem assertThat_of {b : Bool} (h : b = true) (message : String) :
    assertThat b message = .ok () := by
  subst h
  rfl

theorem of_assertThat {b : Bool} {message : String} {u : Unit}
    (h : assertThat b message = .ok u) : b = true := by
  cases b with
  | false => cases h
  | true => rfl

namespace Checked

variable {α : Type*}

def read (v : List α) (i : ℕ) : Except Fault α :=
  match v[i]? with
  | some a => .ok a
  | none => .error .outOfBounds

def write (v : List α) (i : ℕ) (a : α) : Except Fault (List α) :=
  if i < v.length then .ok (v.set i a) else .error .outOfBounds

/-- `v.resize(n)`, new elements being `a`. -/
def resize (v : List α) (n : ℕ) (a : α) : List α := v.take n ++ List.replicate (n - v.length) a

theorem read_of_lt {v : List α} {i : ℕ} (h : i < v.length) : read v i = .ok v[i] := by
  simp [read, List.getElem?_eq_getElem h]

theorem write_of_lt {v : List α} {i : ℕ} (h : i < v.length) (a : α) :
    write v i a = .ok (v.set i a) := if_pos h

/-- A read at the split point returns the head of the second part. -/
theorem read_append (l r : List α) (x : α) {i : ℕ} (hi : i = l.length) :
    read (l ++ x :: r) i = .ok x := by
  subst hi
  simp [read]

/-- A write at the split point replaces the head of the second part. -/
theorem write_append (l r : List α) (x a : α) {i : ℕ} (hi : i = l.length) :
    write (l ++ x :: r) i a = .ok (l ++ a :: r) := by
  subst hi
  simp [write]

theorem getElem?_of_read {v : List α} {i : ℕ} {a : α} (h : read v i = .ok a) : v[i]? = some a := by
  unfold read at h
  split at h
  · next hsome =>
    cases h
    exact hsome
  · cases h

theorem getElem?_of_write {v w : List α} {i : ℕ} {a : α} (h : write v i a = .ok w) (j : ℕ) :
    w[j]? = if i = j then some a else v[j]? := by
  unfold write at h
  split_ifs at h with hi
  cases h
  rw [List.getElem?_set]
  by_cases hj : i = j
  · rw [if_pos hj, if_pos hj, if_pos (hj ▸ hi)]
  · rw [if_neg hj, if_neg hj]

theorem length_of_write {v w : List α} {i : ℕ} {a : α} (h : write v i a = .ok w) :
    w.length = v.length := by
  unfold write at h
  split_ifs at h
  simp only [Except.ok.injEq] at h
  simp [← h]

section Bind

universe u v

variable {ε : Type v} {α β : Type u}

/-- A bound computation returns exactly when both of its parts do. -/
theorem bind_eq_ok {x : Except ε α} {f : α → Except ε β} {b : β} :
    (x >>= f) = .ok b ↔ ∃ a, x = .ok a ∧ f a = .ok b := by
  cases x with
  | error e =>
    constructor
    · intro h
      cases h
    · rintro ⟨a, h, _⟩
      cases h
  | ok a =>
    constructor
    · intro h
      exact ⟨a, rfl, h⟩
    · rintro ⟨a', h, hf⟩
      cases h
      exact hf

@[simp] theorem ok_bind (a : α) (f : α → Except ε β) : (Except.ok a >>= f) = f a := rfl

@[simp] theorem error_bind (e : ε) (f : α → Except ε β) :
    (Except.error e >>= f) = .error e := rfl

end Bind

section Loops

variable {α : Type} (p : α → Bool)

/-- `for (; n > 0; ++i, --n) if (p(v[i])) break;` -/
def findIndex (v : List α) : ℕ → ℕ → Except Fault ℕ
  | 0, i => .ok i
  | n + 1, i => do if p (← read v i) then .ok i else findIndex v n (i + 1)

/-- `while (n > 0 && p(v[n - 1])) --n;` -/
def trimEnd (v : List α) : ℕ → Except Fault ℕ
  | 0 => .ok 0
  | n + 1 => do if p (← read v n) then trimEnd v n else .ok (n + 1)

variable {p}

theorem findIndex_skip {l : List α} (hl : ∀ x ∈ l, p x = false) (pre rest : List α) (n : ℕ) :
    findIndex p (pre ++ (l ++ rest)) (l.length + n) pre.length =
      findIndex p (pre ++ (l ++ rest)) n (pre.length + l.length) := by
  induction l generalizing pre with
  | nil => simp
  | cons x l ih =>
    have hx := hl x List.mem_cons_self
    have ih := ih (fun y hy => hl y (List.mem_cons_of_mem x hy)) (pre ++ [x])
    have hlen : (x :: l).length + n = (l.length + n) + 1 := by simp only [List.length_cons]; omega
    rw [hlen, findIndex, List.cons_append, read_append pre _ x rfl]
    simp only [ok_bind, hx, Bool.false_eq_true, if_false]
    simp only [List.append_assoc, List.singleton_append, List.length_append, List.length_cons,
      List.length_nil] at ih ⊢
    rw [ih]
    congr 1
    omega

/-- The search passes a part without matches. -/
theorem findIndex_absent {l : List α} (hl : ∀ x ∈ l, p x = false) (rest : List α) :
    findIndex p (l ++ rest) l.length 0 = .ok l.length := by
  have hskip := findIndex_skip hl [] rest 0
  simpa [findIndex] using hskip

/-- The search stops at the first match. -/
theorem findIndex_found {l : List α} (hl : ∀ x ∈ l, p x = false) {x : α} (hx : p x = true)
    (rest : List α) (n : ℕ) :
    findIndex p (l ++ x :: rest) (l.length + (n + 1)) 0 = .ok l.length := by
  have hskip := findIndex_skip hl [] (x :: rest) (n + 1)
  have hread : read (l ++ x :: rest) l.length = .ok x := read_append l rest x rfl
  simpa [findIndex, hread, hx] using hskip

/-- Trimming removes a matching end. -/
theorem trimEnd_eq {l r : List α} (hl : ∀ x ∈ l, p x = false) (hr : ∀ x ∈ r, p x = true)
    (rest : List α) : trimEnd p (l ++ (r ++ rest)) (l.length + r.length) = .ok l.length := by
  induction r using List.reverseRecOn generalizing rest with
  | nil =>
    cases l using List.reverseRecOn with
    | nil => rfl
    | append_singleton l x =>
      have hx := hl x (by simp)
      have hread : read (l ++ x :: rest) l.length = .ok x := read_append l rest x rfl
      simp [trimEnd, hread, hx]
  | append_singleton r x ih =>
    have hx := hr x (by simp)
    have hread : read (l ++ (r ++ [x] ++ rest)) (l.length + r.length) = .ok x := by
      simpa using read_append (l ++ r) rest x (i := l.length + r.length) (by simp)
    have ih := ih (fun y hy => hr y (by simp [hy])) (x :: rest)
    rw [List.length_append, List.length_singleton, ← Nat.add_assoc, trimEnd, hread]
    simp only [ok_bind, hx, if_true]
    simpa using ih

end Loops

end Checked
