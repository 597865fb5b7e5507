import Mathlib.Algebra.BigOperators.Group.Finset.Basic
import Mathlib.Algebra.Order.BigOperators.Group.Finset
import Mathlib.Order.Interval.Finset.Basic
import Mathlib.Data.Int.Interval
import Mathlib.Data.Finset.Sort
import Mathlib.Tactic

/-!
# The demand of spaced jobs

Jobs follow each other on a line of cycles without overlap, and their starts have a
minimal distance. Each job is busy in a bounded number of its cycles. A window that
sees many jobs also contains the cycles between their starts.
-/

namespace SpacedDemand

variable {ι : Type*}

/-- Jobs on a line of cycles, in the order of the index. -/
structure Jobs (ι : Type*) [LinearOrder ι] (period demand : ℤ) where
  start : ι → ℤ
  finish : ι → ℤ
  /-- the cycles in which the job is busy -/
  busy : ι → Finset ℤ
  finish_le_start : ∀ {i j}, i < j → finish i ≤ start j
  period_le : ∀ {i j}, i < j → start i + period ≤ start j
  start_le : ∀ {i c}, c ∈ busy i → start i ≤ c
  lt_finish : ∀ {i c}, c ∈ busy i → c < finish i
  card_le : ∀ i, ((busy i).card : ℤ) ≤ demand

section Amounts

variable {start amount : ι → ℤ} {period demand last : ℤ}

theorem sum_le_length_mul {l : List ι} (hamount : ∀ i ∈ l, amount i ≤ demand) :
    (l.map amount).sum ≤ l.length * demand := by
  have h := List.sum_le_card_nsmul (l.map amount) demand (by
    intro a ha
    obtain ⟨i, hi, rfl⟩ := List.mem_map.mp ha
    exact hamount i hi)
  simpa using h

/-- From the first start on, every further job costs a period of the window. -/
theorem sum_le_of_spaced {i : ι} {l : List ι} {x : ℤ} (hfirst : x ≤ start i)
    (hspaced : (i :: l).Pairwise fun a b => start a + period ≤ start b)
    (hamount : ∀ a ∈ i :: l, amount a ≤ demand)
    (hlast : ∀ a ∈ i :: l, start a + amount a ≤ last) :
    ((i :: l).map amount).sum ≤ last - x - l.length * (period - demand) := by
  induction l generalizing i x with
  | nil =>
    have := hlast i (by simp)
    simp only [List.map_cons, List.map_nil, List.sum_cons, List.sum_nil, List.length_nil]
    push_cast
    linarith
  | cons j l ih =>
    have hnext : start i + period ≤ start j := (List.pairwise_cons.mp hspaced).1 j (by simp)
    have hrest := ih (x := x + period) (by linarith) (List.pairwise_cons.mp hspaced).2
      (fun a ha => hamount a (List.mem_cons_of_mem _ ha))
      (fun a ha => hlast a (List.mem_cons_of_mem _ ha))
    have hi := hamount i (by simp)
    rw [List.map_cons, List.sum_cons, List.length_cons]
    push_cast
    linarith

end Amounts

namespace Jobs

open scoped Classical in
/-- The busy cycles of a window. -/
noncomputable def busyIn [LinearOrder ι] {period demand : ℤ} (jobs : Jobs ι period demand)
    (w time : ℤ) : Finset ℤ :=
  (Finset.Ico w (w + time)).filter fun c => ∃ i, c ∈ jobs.busy i

variable [LinearOrder ι] {period demand : ℤ} (jobs : Jobs ι period demand) {w time : ℤ}

theorem mem_busyIn {c : ℤ} :
    c ∈ jobs.busyIn w time ↔ (w ≤ c ∧ c < w + time) ∧ ∃ i, c ∈ jobs.busy i := by
  simp [busyIn]

theorem card_busyIn_le (htime : 0 ≤ time) : ((jobs.busyIn w time).card : ℤ) ≤ time := by
  have hsub : jobs.busyIn w time ⊆ Finset.Ico w (w + time) := fun c hc =>
    Finset.mem_Ico.mpr (jobs.mem_busyIn.mp hc).1
  have h := Finset.card_le_card hsub
  rw [Int.card_Ico, add_sub_cancel_left] at h
  omega

/-- The cycles of the window in which a job is busy. -/
noncomputable def share (w time : ℤ) (i : ι) : Finset ℤ :=
  (jobs.busy i).filter (· ∈ Finset.Ico w (w + time))

theorem card_share_le (i : ι) : ((jobs.share w time i).card : ℤ) ≤ demand :=
  le_trans (by exact_mod_cast Finset.card_filter_le _ _) (jobs.card_le i)

/-- A share fits between the later of the two starts and any cycle behind it. -/
theorem card_share_le_sub {i : ι} {lo up : ℤ} (hle : lo ≤ up)
    (hlo : ∀ c ∈ jobs.share w time i, lo ≤ c) (hup : ∀ c ∈ jobs.share w time i, c < up) :
    ((jobs.share w time i).card : ℤ) ≤ up - lo := by
  have hsub : jobs.share w time i ⊆ Finset.Ico lo up := fun c hc =>
    Finset.mem_Ico.mpr ⟨hlo c hc, hup c hc⟩
  have h := Finset.card_le_card hsub
  rw [Int.card_Ico] at h
  omega

/-- The jobs that are busy in the window, in their order. -/
theorem exists_jobs_of_window (w time : ℤ) : ∃ l : List ι, l.Pairwise (· < ·) ∧
    (∀ i ∈ l, (jobs.share w time i).Nonempty) ∧
      ((jobs.busyIn w time).card : ℤ) ≤ (l.map fun i => ((jobs.share w time i).card : ℤ)).sum := by
  classical
  have hjob : ∀ c : jobs.busyIn w time, ∃ i, (c : ℤ) ∈ jobs.share w time i := by
    rintro ⟨c, hc⟩
    obtain ⟨hwindow, i, hi⟩ := jobs.mem_busyIn.mp hc
    exact ⟨i, Finset.mem_filter.mpr ⟨hi, Finset.mem_Ico.mpr hwindow⟩⟩
  choose job hjob using hjob
  let seen : Finset ι := (jobs.busyIn w time).attach.image job
  refine ⟨seen.sort (· ≤ ·), seen.sortedLT_sort.pairwise, ?_, ?_⟩
  · intro i hi
    obtain ⟨c, -, rfl⟩ := Finset.mem_image.mp ((Finset.mem_sort _).mp hi)
    exact ⟨c, hjob c⟩
  · have hcover : jobs.busyIn w time ⊆ seen.biUnion (jobs.share w time) := fun c hc =>
      Finset.mem_biUnion.mpr
        ⟨job ⟨c, hc⟩, Finset.mem_image_of_mem job (Finset.mem_attach _ _), hjob ⟨c, hc⟩⟩
    have hcard := (Finset.card_le_card hcover).trans Finset.card_biUnion_le
    have hsum : (((seen.sort (· ≤ ·)).map fun i => (jobs.share w time i).card).sum) =
        ∑ i ∈ seen, (jobs.share w time i).card := by
      rw [← Finset.sum_map_toList]
      exact ((Finset.sort_perm_toList _ _).map _).sum_eq
    rw [← hsum] at hcard
    calc ((jobs.busyIn w time).card : ℤ)
        ≤ (((seen.sort (· ≤ ·)).map fun i => (jobs.share w time i).card).sum : ℕ) := by
          exact_mod_cast hcard
      _ = _ := by rw [Nat.cast_list_sum, List.map_map]; rfl

/-- What a window sees: the jobs that start in it after the first one are bounded both by
their demands and by the cycles between their starts. -/
theorem exists_later_jobs (w time : ℤ) (hdemand : 0 ≤ demand) :
    ∃ later : ℕ, ((jobs.busyIn w time).card : ℤ) ≤ (later + 1) * demand ∧
      (0 < later →
        ((jobs.busyIn w time).card : ℤ) ≤ time - (later - 1) * (period - demand)) := by
  obtain ⟨l, hsorted, hbusy, hcard⟩ := jobs.exists_jobs_of_window w time
  have hwindow : ∀ i, ∀ c ∈ jobs.share w time i, (jobs.start i ≤ c ∧ c < jobs.finish i) ∧
      w ≤ c ∧ c < w + time := by
    intro i c hc
    obtain ⟨hi, hico⟩ := Finset.mem_filter.mp hc
    exact ⟨⟨jobs.start_le hi, jobs.lt_finish hi⟩, Finset.mem_Ico.mp hico⟩
  have htotal : (l.map fun i => ((jobs.share w time i).card : ℤ)).sum ≤ l.length * demand :=
    sum_le_length_mul fun i _ => jobs.card_share_le i
  match l, hsorted, hbusy, hcard, htotal with
  | [], _, _, hcard, _ =>
    simp only [List.map_nil, List.sum_nil] at hcard
    exact ⟨0, by simpa using hcard.trans hdemand, by simp⟩
  | [i], _, _, hcard, htotal =>
    exact ⟨0, by simpa using hcard.trans htotal, by simp⟩
  | i :: j :: l, hsorted, hbusy, hcard, htotal =>
    refine ⟨l.length + 1, ?_, fun _ => ?_⟩
    · simp only [List.length_cons] at htotal
      push_cast at htotal ⊢
      exact hcard.trans htotal
    -- the share of the first job ends before the second one starts
    have hij : i < j := (List.pairwise_cons.mp hsorted).1 j (by simp)
    have hfinish := jobs.finish_le_start hij
    have hfirst : w + ((jobs.share w time i).card : ℤ) ≤ jobs.start j := by
      obtain ⟨c, hc⟩ := hbusy i (by simp)
      have hc' := hwindow i c hc
      have hfit : ((jobs.share w time i).card : ℤ) ≤ jobs.start j - w := by
        apply jobs.card_share_le_sub (by omega) (fun c hc => (hwindow i c hc).2.1)
        intro c hc
        have := (hwindow i c hc).1.2
        omega
      linarith
    have hends : ∀ a ∈ j :: l,
        jobs.start a + ((jobs.share w time a).card : ℤ) ≤ w + time := by
      intro a ha
      obtain ⟨c, hc⟩ := hbusy a (List.mem_cons_of_mem _ ha)
      have hc' := hwindow a c hc
      have hfit : ((jobs.share w time a).card : ℤ) ≤ w + time - jobs.start a :=
        jobs.card_share_le_sub (by omega) (fun c hc => (hwindow a c hc).1.1)
          fun c hc => (hwindow a c hc).2.2
      linarith
    have hlater := sum_le_of_spaced hfirst
      ((List.pairwise_cons.mp hsorted).2.imp jobs.period_le)
      (fun a _ => jobs.card_share_le a) hends
    rw [List.map_cons, List.sum_cons] at hcard
    push_cast
    linarith

end Jobs

end SpacedDemand
