import Llvmta.Library.PerEntry
import Llvmta.PathAnalysis.PersistenceCounting

/-!
# Runs with persistent accesses

A run takes edges of the state graph one after the other. On each of them scopes are
entered and lines are missed, or turned dirty, as its weight says. Between two entries of a
scope each line that is annotated persistent in it is missed at most once. A vector that
counts no more than the annotations of an address, and subtracts its width for each entry,
is then never positive, as long as these lines are among those that the width counts.
-/

namespace Llvmta

open Checked PerEntry

/-- What happens on an edge: a scope is entered, or a line is missed as annotated. -/
inductive PersistenceEvent where
  | entry (scope : PersistenceScope)
  | access (annot : Annotation) (line : ℕ)
  deriving DecidableEq

namespace PersistenceEvent

def annot? : PersistenceEvent → Option Annotation
  | entry _ => none
  | access annot _ => some annot

/-- What the event is for a scope. -/
def useIn (s : PersistenceScope) : PersistenceEvent → Option (Use ℕ)
  | entry scope => if scope = s then some .entry else none
  | access annot line => if s ∈ annot.scopes then some (.use line) else none

end PersistenceEvent

/-- The line has a byte of the address; an array consists of all its bytes. -/
def TouchesLine (P : StaticAddresses) (linesize : Word) (addr : DataAddress) (line : ℕ) : Prop :=
  match addr with
  | .interval lower upper =>
    ∃ a, lower.toNat ≤ a ∧ a ≤ upper.toNat ∧ a / linesize.toNat = line
  | .array glvar =>
    ∃ base, P.getGlobalVarAddress glvar = .ok base ∧ ∃ a, base.toNat ≤ a ∧
      a < base.toNat + (P.getArraySize glvar).toNat ∧ a / linesize.toNat = line

/-- The lines that the width of an address counts. -/
def countedLines (P : StaticAddresses) (linesize : Word) (addr : DataAddress) : Finset ℕ :=
  match addr.getAsInterval P with
  | .ok (lower, upper) =>
    Finset.Icc (lower.toNat / linesize.toNat) (upper.toNat / linesize.toNat)
  | .error _ => ∅

/-- The events while an edge with these scopes and annotations is taken. -/
structure Traverses (P : StaticAddresses) (linesize : Word) (entered : List PersistenceScope)
    (annotations : List Annotation) (events : List PersistenceEvent) : Prop where
  entries : ∀ s, events.count (.entry s) = entered.count s
  misses : annotations.Subperm (events.filterMap PersistenceEvent.annot?)
  lines : ∀ {annot line}, .access annot line ∈ events →
    TouchesLine P linesize annot.address line

theorem Traverses.nil {P : StaticAddresses} {linesize : Word} : Traverses P linesize [] [] [] where
  entries _ := rfl
  misses := List.nil_subperm
  lines := nofun

/-- The edges that are taken with their events. -/
abbrev PersistentPath := List (GraphEdge × List PersistenceEvent)

structure PersistentRun (P : StaticAddresses) (linesize : Word) (G : Graph)
    (entered : GraphEdge → List PersistenceScope) (annotated : GraphEdge → List Annotation)
    (run : PersistentPath) : Prop where
  edges : ∀ step ∈ run, G.hasEdge step.1
  traverses : ∀ step ∈ run, Traverses P linesize (entered step.1) (annotated step.1) step.2
  once : ∀ s, Allowed Once none ((run.flatMap Prod.snd).filterMap (PersistenceEvent.useIn s))

/-- The lines that are added to an array, on this step, are among those of its width. -/
def WithinArrays (P : StaticAddresses) (Dlinesize linesize : Word) (edges : List GraphEdge)
    (annotated : GraphEdge → List Annotation) (events : List PersistenceEvent) : Prop :=
  ∀ annot line, .access annot line ∈ events → ∀ s ∈ annot.scopes, ∀ glvar,
    Annotated edges annotated s (.array glvar) →
    groupOf P Dlinesize (.array glvar) annot.address = true →
    line ∈ countedLines P linesize (.array glvar)

section Steps

variable {P : StaticAddresses} {Dlinesize linesize : Word} {group : DataAddress → Bool}
  {s : PersistenceScope} {entered : List PersistenceScope} {annotations : List Annotation}
  {events : List PersistenceEvent} {lines : Finset ℕ}

theorem hits_cons (annot : Annotation) : hits group s (annot :: annotations) =
    (if group annot.address then (annot.scopes.count s : ℤ) else 0) +
      hits group s annotations := List.sum_cons

theorem hits_perm {annotations' : List Annotation} (h : annotations.Perm annotations') :
    hits group s annotations = hits group s annotations' := (h.map _).sum_eq

theorem hits_subperm {annotations' : List Annotation} (h : annotations.Subperm annotations') :
    hits group s annotations ≤ hits group s annotations' := by
  obtain ⟨l, hperm, hsub⟩ := h
  rw [← hits_perm hperm]
  clear hperm
  induction hsub with
  | slnil => exact le_rfl
  | cons annot _ ih =>
    rw [hits_cons]
    split_ifs <;> omega
  | cons_cons annot _ ih =>
    rw [hits_cons, hits_cons]
    omega

theorem useIn_entry_self : (.entry s :: events : List PersistenceEvent).filterMap
    (PersistenceEvent.useIn s) = .entry :: events.filterMap (PersistenceEvent.useIn s) :=
  List.filterMap_cons_some (if_pos rfl)

theorem useIn_entry_of_ne {scope : PersistenceScope} (h : scope ≠ s) :
    (.entry scope :: events : List PersistenceEvent).filterMap (PersistenceEvent.useIn s) =
      events.filterMap (PersistenceEvent.useIn s) :=
  List.filterMap_cons_none (if_neg h)

theorem useIn_access_of_mem {annot : Annotation} {line : ℕ} (h : s ∈ annot.scopes) :
    (.access annot line :: events : List PersistenceEvent).filterMap
      (PersistenceEvent.useIn s) = .use line :: events.filterMap (PersistenceEvent.useIn s) :=
  List.filterMap_cons_some (if_pos h)

theorem useIn_access_of_notMem {annot : Annotation} {line : ℕ} (h : s ∉ annot.scopes) :
    (.access annot line :: events : List PersistenceEvent).filterMap
      (PersistenceEvent.useIn s) = events.filterMap (PersistenceEvent.useIn s) :=
  List.filterMap_cons_none (if_neg h)

/-- The annotations that count are used on the step. -/
theorem hits_le_worth (h : ∀ annot line, .access annot line ∈ events →
      s ∈ annot.scopes → group annot.address = true → line ∈ lines) :
    hits group s (events.filterMap PersistenceEvent.annot?) ≤
      worth (fun line => if line ∈ lines then 1 else 0)
        (events.filterMap (PersistenceEvent.useIn s)) := by
  induction events with
  | nil => exact le_rfl
  | cons event events ih =>
    have hrest := ih fun annot line hmem => h annot line (List.mem_cons_of_mem _ hmem)
    cases event with
    | entry scope =>
      rw [List.filterMap_cons_none (by rfl)]
      by_cases hscope : scope = s
      · rw [hscope, useIn_entry_self, worth_entry]
        exact hrest
      · rw [useIn_entry_of_ne hscope]
        exact hrest
    | access annot line =>
      rw [List.filterMap_cons_some (b := annot) (by rfl), hits_cons]
      by_cases hs : s ∈ annot.scopes
      · have hcount : annot.scopes.count s = 1 :=
          List.count_eq_one_of_mem annot.scopes_nodup hs
        rw [useIn_access_of_mem hs, hcount, worth_use]
        by_cases hgroup : group annot.address = true
        · rw [if_pos hgroup, if_pos (h annot line List.mem_cons_self hs hgroup)]
          push_cast
          linarith
        · rw [if_neg hgroup]
          split_ifs <;> linarith
      · rw [useIn_access_of_notMem hs, List.count_eq_zero.mpr hs]
        simpa using hrest

theorem entries_useIn : entries (events.filterMap (PersistenceEvent.useIn s)) =
    events.count (.entry s) := by
  induction events with
  | nil => rfl
  | cons event events ih =>
    cases event with
    | entry scope =>
      by_cases hscope : scope = s
      · rw [hscope, useIn_entry_self, entries_entry, ih, List.count_cons_self]
      · rw [useIn_entry_of_ne hscope, ih, List.count_cons_of_ne]
        exact fun heq => hscope (PersistenceEvent.entry.inj heq)
    | access annot line =>
      rw [List.count_cons_of_ne (by simp), ← ih]
      by_cases hs : s ∈ annot.scopes
      · rw [useIn_access_of_mem hs, entries_use]
      · rw [useIn_access_of_notMem hs]

end Steps

section Runs

variable {P : StaticAddresses} {Dlinesize linesize : Word} {G : Graph} {edges : List GraphEdge}
  {entered : GraphEdge → List PersistenceScope} {annotated : GraphEdge → List Annotation}
  {run : PersistentPath} {s : PersistenceScope} {addr : DataAddress} {v : VarCoeffVector}
  {group : DataAddress → Bool} {lines : Finset ℕ} {w : ℤ}

/-- Over a run the values of the steps are at most the uses, less the width for each entry. -/
theorem value_run_le (htraverses : ∀ step ∈ run,
      Traverses P linesize (entered step.1) (annotated step.1) step.2)
    (hlines : ∀ step ∈ run, ∀ annot line, .access annot line ∈ step.2 →
      s ∈ annot.scopes → group annot.address = true → line ∈ lines)
    (hvalue : ∀ step ∈ run, value (taken step.1) v ≤
      hits group s (annotated step.1) - w * ((entered step.1).count s : ℤ)) :
    value (timesTaken (run.map Prod.fst)) v ≤
      worth (fun line => if line ∈ lines then 1 else 0) ((run.flatMap Prod.snd).filterMap (PersistenceEvent.useIn s)) -
        w * entries ((run.flatMap Prod.snd).filterMap (PersistenceEvent.useIn s)) := by
  rw [value_timesTaken]
  induction run with
  | nil => simp [worth, entries]
  | cons step run ih =>
    have hrest := ih (fun x hx => htraverses x (List.mem_cons_of_mem _ hx))
      (fun x hx => hlines x (List.mem_cons_of_mem _ hx))
      (fun x hx => hvalue x (List.mem_cons_of_mem _ hx))
    have hstep := htraverses step List.mem_cons_self
    have hhits : hits group s (annotated step.1) ≤ _ := (hits_subperm hstep.misses).trans
      (hits_le_worth (hlines step List.mem_cons_self))
    have hfirst := hvalue step List.mem_cons_self
    rw [List.flatMap_cons, List.filterMap_append, worth_append, entries_append, entries_useIn,
      hstep.entries s, List.map_cons, List.map_cons, List.sum_cons]
    push_cast
    rw [mul_add]
    omega

/-- The constraint of a line or an array holds. -/
theorem value_run_nonpos (hrun : PersistentRun P linesize G entered annotated run)
    (hwithin : ∀ step ∈ run, WithinArrays P Dlinesize linesize edges annotated step.2)
    (haddr : (∃ a, addr = .ofAddress a) ∨
      ∃ glvar, addr = .array glvar ∧ Annotated edges annotated s addr)
    (hwidth : ((countedLines P linesize addr).card : ℤ) ≤ w)
    (hvalue : ∀ edge, G.hasEdge edge → value (taken edge) v ≤
      hits (groupOf P Dlinesize addr) s (annotated edge) - w * ((entered edge).count s : ℤ)) :
    value (timesTaken (run.map Prod.fst)) v ≤ 0 := by
  have hlines : ∀ step ∈ run, ∀ annot line, .access annot line ∈ step.2 →
      s ∈ annot.scopes → groupOf P Dlinesize addr annot.address = true →
      line ∈ countedLines P linesize addr := by
    intro step hstep annot line hmem hs hgroup
    rcases haddr with ⟨a, rfl⟩ | ⟨glvar, rfl, hannotated⟩
    · have htouches := (hrun.traverses step hstep).lines hmem
      rw [isLine_iff.mp hgroup] at htouches
      obtain ⟨b, hlower, hupper, hline⟩ := htouches
      have hb : b = a.toNat := le_antisymm hupper hlower
      rw [hb] at hline
      simp [countedLines, DataAddress.ofAddress, DataAddress.getAsInterval, hline]
    · exact hwithin step hstep annot line hmem s hs glvar hannotated hgroup
  have hle := value_run_le hrun.traverses hlines fun step hstep =>
    hvalue step.1 (hrun.edges step hstep)
  have hworth := worth_once_le (s := countedLines P linesize addr) (hrun.once s)
  have hcounted : ((countedLines P linesize addr).card : ℤ) *
      entries ((run.flatMap Prod.snd).filterMap (PersistenceEvent.useIn s)) ≤
        w * entries ((run.flatMap Prod.snd).filterMap (PersistenceEvent.useIn s)) :=
    mul_le_mul_of_nonneg_right hwidth (Int.natCast_nonneg _)
  linarith

end Runs

end Llvmta
