import Mathlib.Data.Set.Basic
import Mathlib.Tactic

/-!
# Runs of an abstract interpretation and what they describe

A run starts from an initial abstract state, applies abstract operations and
joins the results of other runs. Beside its abstract value it describes a set
of concrete states: those the initial state stands for, carried through the
concrete counterparts of the operations, a join being described by either
operand. `Run.sound_of_joins` is the one induction over runs: a relation between
an abstract state and the set it stands for holds after every run whose steps and
joins are permitted, and such a run never gets stuck.
-/

namespace Collecting

/-- Finite runs: a tree of operations whose branchings are the joins. -/
inductive Run (ι Op : Type*) where
  | start (i : ι)
  | step (r : Run ι Op) (op : Op)
  | join (r₁ r₂ : Run ι Op)

/-- An abstract interpreter together with the concrete meaning of its operations. -/
structure Analysis (ι Op σ κ ε : Type*) where
  start : ι → σ
  step : Op → σ → Except ε σ
  join : σ → σ → Except ε σ
  described : ι → Set κ
  concrete : Op → κ → κ → Prop

namespace Analysis

variable {ι Op σ κ ε : Type*} (S : Analysis ι Op σ κ ε)

/-- The abstract value of a run, or the error it stops with. -/
def eval : Run ι Op → Except ε σ
  | .start i => .ok (S.start i)
  | .step r op => do S.step op (← eval r)
  | .join r₁ r₂ => do S.join (← eval r₁) (← eval r₂)

/-- All concrete states one operation can lead to from a set of states. -/
def image (op : Op) (K : Set κ) : Set κ := {c' | ∃ c ∈ K, S.concrete op c c'}

/-- The concrete states described by a run. -/
def collect : Run ι Op → Set κ
  | .start i => S.described i
  | .step r op => S.image op (collect r)
  | .join r₁ r₂ => collect r₁ ∪ collect r₂

/-- Every operation of the run is permitted where it is applied. -/
def Every (p : Op → σ → Set κ → Prop) : Run ι Op → Prop
  | .start _ => True
  | .step r op => Every p r ∧ ∀ s, S.eval r = .ok s → p op s (S.collect r)
  | .join r₁ r₂ => Every p r₁ ∧ Every p r₂

/-- Every join of the run is permitted for its operands. -/
def EveryJoin (q : σ → σ → Prop) : Run ι Op → Prop
  | .start _ => True
  | .step r _ => EveryJoin q r
  | .join r₁ r₂ => EveryJoin q r₁ ∧ EveryJoin q r₂ ∧
      ∀ s t, S.eval r₁ = .ok s → S.eval r₂ = .ok t → q s t

variable {S}

@[simp] theorem eval_start (i : ι) : S.eval (.start i) = .ok (S.start i) := rfl

theorem eval_step_ok {r : Run ι Op} {op : Op} {s : σ} (h : S.eval r = .ok s) :
    S.eval (.step r op) = S.step op s := by
  simp only [eval, h]
  rfl

theorem eval_join_ok {r₁ r₂ : Run ι Op} {s t : σ} (h₁ : S.eval r₁ = .ok s)
    (h₂ : S.eval r₂ = .ok t) : S.eval (.join r₁ r₂) = S.join s t := by
  simp only [eval, h₁, h₂]
  rfl

/-- The induction over runs whose steps and joins are permitted. `P s K` relates an
abstract state to the set of concrete states it has to stand for. -/
theorem Run.sound_of_joins {p : Op → σ → Set κ → Prop} {q : σ → σ → Prop} (P : σ → Set κ → Prop)
    (hstart : ∀ i, P (S.start i) (S.described i))
    (hstep : ∀ op s K, P s K → p op s K → ∃ s', S.step op s = .ok s' ∧ P s' (S.image op K))
    (hjoin : ∀ s t K L, P s K → P t L → q s t → ∃ u, S.join s t = .ok u ∧ P u (K ∪ L))
    (r : Run ι Op) (hr : S.Every p r) (hq : S.EveryJoin q r) :
    ∃ s, S.eval r = .ok s ∧ P s (S.collect r) := by
  induction r with
  | start i => exact ⟨S.start i, rfl, hstart i⟩
  | step r op ih =>
    obtain ⟨s, hs, hP⟩ := ih hr.1 hq
    obtain ⟨s', hs', hP'⟩ := hstep op s _ hP (hr.2 s hs)
    exact ⟨s', (eval_step_ok hs).trans hs', hP'⟩
  | join r₁ r₂ ih₁ ih₂ =>
    obtain ⟨s, hs, hP⟩ := ih₁ hr.1 hq.1
    obtain ⟨t, ht, hQ⟩ := ih₂ hr.2 hq.2.1
    obtain ⟨u, hu, hPu⟩ := hjoin s t _ _ hP hQ (hq.2.2 s t hs ht)
    exact ⟨u, (eval_join_ok hs ht).trans hu, hPu⟩

theorem everyJoin_true (r : Run ι Op) : S.EveryJoin (fun _ _ => True) r := by
  induction r with
  | start i => trivial
  | step r op ih => exact ih
  | join r₁ r₂ ih₁ ih₂ => exact ⟨ih₁, ih₂, fun _ _ _ _ => trivial⟩

/-- The same induction when any two states can be joined. -/
theorem Run.sound {p : Op → σ → Set κ → Prop} (P : σ → Set κ → Prop)
    (hstart : ∀ i, P (S.start i) (S.described i))
    (hstep : ∀ op s K, P s K → p op s K → ∃ s', S.step op s = .ok s' ∧ P s' (S.image op K))
    (hjoin : ∀ s t K L, P s K → P t L → ∃ u, S.join s t = .ok u ∧ P u (K ∪ L))
    (r : Run ι Op) (hr : S.Every p r) : ∃ s, S.eval r = .ok s ∧ P s (S.collect r) :=
  Run.sound_of_joins P hstart hstep (fun s t K L hP hQ _ => hjoin s t K L hP hQ) r hr
    (everyJoin_true r)

/-- The same induction for operations that can fail: it speaks of the runs that
have a result. -/
theorem Run.sound_of_every_ok {p : Op → σ → Set κ → Prop} (P : σ → Set κ → Prop)
    (hstart : ∀ i, P (S.start i) (S.described i))
    (hstep : ∀ op s s' K, P s K → p op s K → S.step op s = .ok s' → P s' (S.image op K))
    (hjoin : ∀ s t u K L, P s K → P t L → S.join s t = .ok u → P u (K ∪ L))
    (r : Run ι Op) (hr : S.Every p r) : ∀ s, S.eval r = .ok s → P s (S.collect r) := by
  induction r with
  | start i =>
    intro s hs
    cases hs
    exact hstart i
  | step r op ih =>
    intro s' hs'
    cases heval : S.eval r with
    | error e =>
      rw [eval, heval] at hs'
      cases hs'
    | ok s =>
      exact hstep op s s' _ (ih hr.1 s heval) (hr.2 s heval) ((eval_step_ok heval).symm.trans hs')
  | join r₁ r₂ ih₁ ih₂ =>
    intro u hu
    cases hr₁ : S.eval r₁ with
    | error e =>
      rw [eval, hr₁] at hu
      cases hu
    | ok s =>
      cases hr₂ : S.eval r₂ with
      | error e =>
        rw [eval, hr₁, hr₂] at hu
        cases hu
      | ok t =>
        exact hjoin s t u _ _ (ih₁ hr.1 s hr₁) (ih₂ hr.2 t hr₂)
          ((eval_join_ok hr₁ hr₂).symm.trans hu)

theorem every_true (r : Run ι Op) : S.Every (fun _ _ _ => True) r := by
  induction r with
  | start i => trivial
  | step r op ih => exact ⟨ih, fun _ _ => trivial⟩
  | join r₁ r₂ ih₁ ih₂ => exact ⟨ih₁, ih₂⟩

/-- The same when every operation is permitted. -/
theorem Run.sound_of_ok (P : σ → Set κ → Prop) (hstart : ∀ i, P (S.start i) (S.described i))
    (hstep : ∀ op s s' K, P s K → S.step op s = .ok s' → P s' (S.image op K))
    (hjoin : ∀ s t u K L, P s K → P t L → S.join s t = .ok u → P u (K ∪ L))
    (r : Run ι Op) : ∀ s, S.eval r = .ok s → P s (S.collect r) :=
  Run.sound_of_every_ok P hstart (fun op s s' K hP _ => hstep op s s' K hP) hjoin r (every_true r)

theorem Every.imp {p q : Op → σ → Set κ → Prop} (hpq : ∀ op s K, p op s K → q op s K)
    {r : Run ι Op} (hr : S.Every p r) : S.Every q r := by
  induction r with
  | start i => trivial
  | step r op ih => exact ⟨ih hr.1, fun s hs => hpq op s _ (hr.2 s hs)⟩
  | join r₁ r₂ ih₁ ih₂ => exact ⟨ih₁ hr.1, ih₂ hr.2⟩

end Analysis

end Collecting
