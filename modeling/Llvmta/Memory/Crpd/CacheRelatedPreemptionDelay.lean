import Llvmta.Library.CheckedFold
import Llvmta.Library.OrderedMap
import Mathlib.Algebra.Group.Nat.Even

/-!
# The tags of each resilience

The resilience of a block at a program point is the number of accesses by another task that
it survives. For each cache set the least one over all program points is kept, and the tags
of all sets are sorted into buckets by their resilience. A tag can be in several sets. It
moves to the bucket of a lower resilience; but when it comes with the resilience that it has
already, it is removed.
-/

namespace Llvmta

open Checked

abbrev TagType := ℕ

/-- The resilience of the tags of a cache set. -/
abbrev ResMap := OrderedMap TagType ℕ

/-- The maps of all cache sets, at each program point in their order. -/
abbrev ResInfo := List (List ResMap)

/-- The tags of each resilience. -/
abbrev TagBuckets := OrderedMap ℕ (Finset TagType)

namespace CacheRelatedPreemptionDelay

/-- The lower one of the resilience of a tag and the one that is there. -/
def addEntry (ResSingleSet : ResMap) (Entry : TagType × ℕ) : ResMap :=
  match ResSingleSet.find? Entry.1 with
  | some Age => ResSingleSet.insert Entry.1 (min Entry.2 Age)
  | none => ResSingleSet.insert Entry.1 Entry.2

def addSet (Sets : List ResMap) (ResSet : List ResMap) (i : ℕ) : Except Fault (List ResMap) := do
  let Set ← read Sets i
  let ResSingleSet ← read ResSet i
  write ResSet i (Set.entries.foldl addEntry ResSingleSet)

def computeResiliencePerSet (N_SETS : ℕ) (ResPerPP : ResInfo) : Except Fault (List ResMap) :=
  ResPerPP.foldlM (fun ResSet Sets => (List.range N_SETS).foldlM (addSet Sets) ResSet)
    (List.replicate N_SETS .empty)

/-- `ResInSen[Age].insert(Tag)` -/
def insertTag (ResInSen : TagBuckets) (Age : ℕ) (Tag : TagType) : TagBuckets :=
  match ResInSen.find? Age with
  | some tags => ResInSen.insert Age (insert Tag tags)
  | none => ResInSen.insert Age {Tag}

def eraseTag (ResInSen : TagBuckets) (Age : ℕ) (Tag : TagType) : TagBuckets :=
  match ResInSen.find? Age with
  | some tags => ResInSen.insert Age (tags.erase Tag)
  | none => ResInSen

/-- The walk over the buckets, with whether the tag was found in one. It stops after the
first change. -/
def findTag (Tag : TagType) (Age : ℕ) (ResInSen : TagBuckets) :
    (found : Bool) → List (ℕ × Finset TagType) → Bool × TagBuckets
  | found, [] => (found, ResInSen)
  | found, Entry :: entries =>
    if Tag ∈ Entry.2 then
      if Entry.1 ≥ Age then (true, eraseTag (insertTag ResInSen Age Tag) Entry.1 Tag)
      else findTag Tag Age ResInSen true entries
    else findTag Tag Age ResInSen found entries

def visitTag (ResInSen : TagBuckets) (KV : TagType × ℕ) : TagBuckets :=
  match findTag KV.1 KV.2 ResInSen false ResInSen.entries with
  | (true, ResInSen) => ResInSen
  | (false, ResInSen) => insertTag ResInSen KV.2 KV.1

def sortTags (ResSet : List ResMap) : TagBuckets :=
  ResSet.foldl (fun ResInSen Map => Map.entries.foldl visitTag ResInSen) .empty

def computeTagsForResilience (N_SETS : ℕ) (ResPerPP : ResInfo) : Except Fault TagBuckets := do
  let ResSet ← computeResiliencePerSet N_SETS ResPerPP
  .ok (sortTags ResSet)

section Buckets

variable {m : TagBuckets} {t t' : TagType} {a b r : ℕ} {o : Option ℕ}

/-- The tag is in a bucket. -/
def InBucket (m : TagBuckets) (t : TagType) (r : ℕ) : Prop :=
  ∃ tags, m.find? r = some tags ∧ t ∈ tags

/-- The tag is in one bucket, or in none. -/
def BucketIs (m : TagBuckets) (t : TagType) (o : Option ℕ) : Prop :=
  ∀ r, InBucket m t r ↔ o = some r

/-- Where a tag goes when it comes with a resilience. -/
def nextBucket (o : Option ℕ) (a : ℕ) : Option ℕ :=
  match o with
  | none => some a
  | some b => if a < b then some a else if a = b then none else some b

theorem inBucket_insert {tags : Finset TagType} :
    InBucket (m.insert a tags) t r ↔ if a = r then t ∈ tags else InBucket m t r := by
  unfold InBucket
  rw [OrderedMap.find?_insert]
  split_ifs <;> simp

theorem inBucket_insertTag :
    InBucket (insertTag m a t') t r ↔ InBucket m t r ∨ t = t' ∧ r = a := by
  unfold insertTag
  cases hfind : m.find? a with
  | none =>
    dsimp only
    rw [inBucket_insert]
    split_ifs with h
    · subst h
      simp [InBucket, hfind]
    · simp [Ne.symm h]
  | some tags =>
    dsimp only
    rw [inBucket_insert]
    split_ifs with h
    · subst h
      simp [InBucket, hfind, or_comm]
    · simp [Ne.symm h]

theorem inBucket_eraseTag :
    InBucket (eraseTag m a t') t r ↔ InBucket m t r ∧ ¬(t = t' ∧ r = a) := by
  unfold eraseTag
  cases hfind : m.find? a with
  | none =>
    dsimp only
    constructor
    · intro h
      refine ⟨h, fun hr => ?_⟩
      obtain ⟨tags, htags, -⟩ := h
      rw [hr.2, hfind] at htags
      cases htags
    · exact And.left
  | some tags =>
    dsimp only
    rw [inBucket_insert]
    split_ifs with h
    · subst h
      simp [InBucket, hfind, and_comm]
    · simp [Ne.symm h]

/-- The walk finds the bucket of the tag, if it has one. -/
theorem findTag_of_bucket (h : BucketIs m t (some b)) {entries : List (ℕ × Finset TagType)}
    (hsub : ∀ e ∈ entries, e ∈ m.entries) (found : Bool) :
    findTag t a m found entries =
      if b ∈ entries.map Prod.fst then
        if b ≥ a then (true, eraseTag (insertTag m a t) b t) else (true, m)
      else (found, m) := by
  induction entries generalizing found with
  | nil => rfl
  | cons Entry entries ih =>
    have hfind := OrderedMap.mem_entries_iff.mp (hsub Entry (by simp))
    have hmem : t ∈ Entry.2 ↔ Entry.1 = b := by
      have := h Entry.1
      rw [Option.some_inj, eq_comm] at this
      rw [← this, InBucket, hfind]
      simp
    have hrest := ih fun e he => hsub e (List.mem_cons_of_mem _ he)
    unfold findTag
    simp only [List.map_cons, List.mem_cons]
    by_cases hb : Entry.1 = b
    · have hin : b = Entry.1 ∨ b ∈ entries.map Prod.fst := .inl hb.symm
      rw [if_pos (hmem.mpr hb), if_pos hin, hb]
      by_cases hle : b ≥ a
      · rw [if_pos hle, if_pos hle]
      · rw [if_neg hle, if_neg hle, hrest, if_neg hle]
        split_ifs <;> rfl
    · rw [if_neg (hmem.not.mpr hb), hrest]
      simp only [Ne.symm hb, false_or]

theorem findTag_of_none (h : BucketIs m t none) {entries : List (ℕ × Finset TagType)}
    (hsub : ∀ e ∈ entries, e ∈ m.entries) (found : Bool) :
    findTag t a m found entries = (found, m) := by
  induction entries with
  | nil => rfl
  | cons Entry entries ih =>
    have hfind := OrderedMap.mem_entries_iff.mp (hsub Entry (by simp))
    have hmem : t ∉ Entry.2 := fun ht => nomatch (h Entry.1).mp ⟨Entry.2, hfind, ht⟩
    unfold findTag
    rw [if_neg hmem]
    exact ih fun e he => hsub e (List.mem_cons_of_mem _ he)

/-- A visit moves the tag that comes. -/
theorem BucketIs.visit_self (h : BucketIs m t o) :
    BucketIs (visitTag m (t, a)) t (nextBucket o a) := by
  intro r
  unfold visitTag
  cases o with
  | none =>
    rw [findTag_of_none h fun e he => he]
    dsimp only [nextBucket]
    rw [inBucket_insertTag, h r]
    simp [eq_comm]
  | some b =>
    have hb : b ∈ m.entries.map Prod.fst := by
      obtain ⟨tags, htags, -⟩ := (h b).mpr rfl
      exact List.mem_map.mpr ⟨(b, tags), OrderedMap.mem_entries_iff.mpr htags, rfl⟩
    rw [findTag_of_bucket h (fun e he => he), if_pos hb]
    unfold nextBucket
    by_cases hle : b ≥ a
    · rw [if_pos hle]
      dsimp only
      rw [inBucket_eraseTag, inBucket_insertTag, h r]
      rcases hle.lt_or_eq with hlt | rfl
      · rw [if_pos hlt]
        grind
      · simp [eq_comm]
    · rw [if_neg hle]
      dsimp only
      rw [h r, if_neg (by omega), if_neg (by omega)]

/-- It moves no other tag. -/
theorem inBucket_visit_of_ne (hne : t ≠ t') :
    InBucket (visitTag m (t', a)) t r ↔ InBucket m t r := by
  have hinsert : InBucket (insertTag m a t') t r ↔ InBucket m t r := by
    rw [inBucket_insertTag]
    simp [hne]
  have hwalk : ∀ (entries : List (ℕ × Finset TagType)) (found : Bool),
      InBucket (findTag t' a m found entries).2 t r ↔ InBucket m t r := by
    intro entries
    induction entries with
    | nil => exact fun _ => Iff.rfl
    | cons Entry entries ih =>
      intro found
      unfold findTag
      split_ifs
      · dsimp only
        rw [inBucket_eraseTag, hinsert]
        simp [hne]
      · exact ih true
      · exact ih found
  have hwalk' := hwalk m.entries false
  unfold visitTag
  dsimp only
  split
  next m' heq =>
    rw [heq] at hwalk'
    exact hwalk'
  next m' heq =>
    rw [heq] at hwalk'
    rw [inBucket_insertTag]
    simp [hne, hwalk']

theorem BucketIs.visit_of_ne (h : BucketIs m t o) (hne : t ≠ t') :
    BucketIs (visitTag m (t', a)) t o := fun r => (inBucket_visit_of_ne hne).trans (h r)

/-- The tags of a set are visited once each. -/
theorem BucketIs.foldl_entries (h : BucketIs m t o) {entries : List (TagType × ℕ)}
    (hsorted : entries.Pairwise fun e e' => e.1 < e'.1) :
    BucketIs (entries.foldl visitTag m) t
      (match OrderedMap.findEntry t entries with
      | some a => nextBucket o a
      | none => o) := by
  induction entries generalizing m o with
  | nil => exact h
  | cons KV entries ih =>
    obtain ⟨tag, Age⟩ := KV
    obtain ⟨hfirst, hrest⟩ := List.pairwise_cons.mp hsorted
    rw [List.foldl_cons]
    by_cases ht : tag = t
    · subst ht
      have hnone : OrderedMap.findEntry tag entries = none :=
        OrderedMap.findEntry_eq_none fun e he => (hfirst e he).ne'
      have hvisited := ih (h.visit_self (a := Age)) hrest
      rw [hnone] at hvisited
      rw [OrderedMap.findEntry_cons_self (tag, Age) entries]
      exact hvisited
    · rw [OrderedMap.findEntry_cons_of_ne ht]
      exact ih (h.visit_of_ne (Ne.symm ht)) hrest

end Buckets

section Resilience

variable {ResSet : List ResMap} {t : TagType} {r : ℕ}

/-- The resilience of a tag in each of the sets that it is in. -/
def resiliences (ResSet : List ResMap) (t : TagType) : List ℕ :=
  ResSet.filterMap fun Map => Map.find? t

theorem bucketIs_sortTags (ResSet : List ResMap) (t : TagType) :
    BucketIs (sortTags ResSet) t ((resiliences ResSet t).foldl nextBucket none) := by
  have hrun : ∀ (ResSet : List ResMap) (m : TagBuckets) (o : Option ℕ), BucketIs m t o →
      BucketIs (ResSet.foldl (fun ResInSen Map => Map.entries.foldl visitTag ResInSen) m) t
        ((resiliences ResSet t).foldl nextBucket o) := by
    intro ResSet
    induction ResSet with
    | nil => exact fun _ _ h => h
    | cons Map ResSet ih =>
      intro m o h
      have hset := h.foldl_entries Map.sorted
      have hrest := ih _ _ hset
      rw [List.foldl_cons]
      unfold resiliences at hrest ⊢
      rw [List.filterMap_cons]
      unfold OrderedMap.find? at hrest ⊢
      cases hfind : OrderedMap.findEntry t Map.entries with
      | none =>
        rw [hfind] at hrest
        exact hrest
      | some a =>
        rw [hfind] at hrest
        exact hrest
  exact hrun ResSet .empty none fun r => by simp [InBucket]

/-- A tag ends in the bucket of a least resilience if it has come with it an odd number of
times. -/
theorem foldl_nextBucket_iff {l : List ℕ} (hle : ∀ a ∈ l, r ≤ a) {o : Option ℕ}
    (ho : ∀ b ∈ o, r ≤ b) :
    l.foldl nextBucket o = some r ↔ (Odd (l.count r) ↔ o ≠ some r) := by
  induction l generalizing o with
  | nil => simp
  | cons a l ih =>
    obtain ⟨ha, hrest⟩ := List.forall_mem_cons.mp hle
    have hnext : ∀ b ∈ nextBucket o a, r ≤ b := by
      intro b hb
      unfold nextBucket at hb
      cases o with
      | none =>
        obtain rfl := Option.mem_some_iff.mp hb
        exact ha
      | some b' =>
        have := ho b' rfl
        dsimp only at hb
        split_ifs at hb
        · obtain rfl := Option.mem_some_iff.mp hb
          exact ha
        · cases hb
        · obtain rfl := Option.mem_some_iff.mp hb
          exact this
    rw [List.foldl_cons, ih hrest hnext, List.count_cons]
    rcases ha.eq_or_lt with rfl | hlt
    · rw [if_pos (by simp), Nat.odd_add_one]
      have hflip : nextBucket o r = some r ↔ o ≠ some r := by
        unfold nextBucket
        cases o with
        | none => simp
        | some b =>
          have := ho b rfl
          dsimp only
          split_ifs with h h' <;> simp <;> omega
      rw [ne_eq, hflip]
      tauto
    · have hkeep : nextBucket o a = some r ↔ o = some r := by
        unfold nextBucket
        cases o with
        | none =>
          simp
          omega
        | some b =>
          dsimp only
          split_ifs with h h' <;> simp <;> omega
      rw [if_neg (by simp; omega), Nat.add_zero, ne_eq, hkeep]

/-- The least resilience of a tag over all sets. -/
def MinimumResilience (ResSet : List ResMap) (t : TagType) (r : ℕ) : Prop :=
  r ∈ resiliences ResSet t ∧ ∀ a ∈ resiliences ResSet t, r ≤ a

/-- The tag is in the bucket of its least resilience, and in no other one. -/
def InMinimumBucket (ResSet : List ResMap) (buckets : TagBuckets) (t : TagType) : Prop :=
  ∃ r, MinimumResilience ResSet t r ∧ ∀ r', InBucket buckets t r' ↔ r' = r

theorem exists_minimum (h : resiliences ResSet t ≠ []) :
    ∃ r, MinimumResilience ResSet t r := by
  obtain ⟨r, hr⟩ := Option.ne_none_iff_exists'.mp (List.min?_eq_none_iff.not.mpr h)
  exact ⟨r, List.min?_eq_some_iff.mp hr⟩

theorem inMinimumBucket_iff (hr : MinimumResilience ResSet t r) :
    InMinimumBucket ResSet (sortTags ResSet) t ↔ Odd ((resiliences ResSet t).count r) := by
  have hbucket := bucketIs_sortTags ResSet t
  have hparity := foldl_nextBucket_iff (o := none) hr.2 (by simp)
  have hparity' : (resiliences ResSet t).foldl nextBucket none = some r ↔
      Odd ((resiliences ResSet t).count r) := by
    simpa using hparity
  rw [← hparity']
  constructor
  · rintro ⟨r', hr', hin⟩
    obtain rfl : r' = r := le_antisymm (hr'.2 r hr.1) (hr.2 r' hr'.1)
    exact (hbucket r').mp ((hin r').mpr rfl)
  · intro h
    refine ⟨r, hr, fun r' => ?_⟩
    rw [hbucket r', h, Option.some_inj, eq_comm]

/-- No tag is lost if and only if each tag has its least resilience in an odd number of sets. -/
theorem computeTagsForResilience_iff (N_SETS : ℕ) (ResPerPP : ResInfo)
    (h : computeResiliencePerSet N_SETS ResPerPP = .ok ResSet) :
    (∃ buckets, computeTagsForResilience N_SETS ResPerPP = .ok buckets ∧
      ∀ t, resiliences ResSet t ≠ [] → InMinimumBucket ResSet buckets t) ↔
    ∀ t r, MinimumResilience ResSet t r → Odd ((resiliences ResSet t).count r) := by
  have hok : computeTagsForResilience N_SETS ResPerPP = .ok (sortTags ResSet) := by
    unfold computeTagsForResilience
    rw [h]
    rfl
  constructor
  · rintro ⟨buckets, hbuckets, hall⟩ t r hr
    rw [hok] at hbuckets
    cases hbuckets
    exact (inMinimumBucket_iff hr).mp (hall t (List.ne_nil_of_mem hr.1))
  · intro hodd
    refine ⟨_, hok, fun t ht => ?_⟩
    obtain ⟨r, hr⟩ := exists_minimum ht
    exact (inMinimumBucket_iff hr).mpr (hodd t r hr)

/-- The resilience of a tag in a set, at the program points. -/
def resiliencesAt (ResPerPP : ResInfo) (i : ℕ) (t : TagType) : List ℕ :=
  ResPerPP.filterMap fun Sets => (Sets[i]?.getD .empty).find? t

/-- The lower one of two resiliences, if both are there. -/
def lower : Option ℕ → Option ℕ → Option ℕ
  | some a, some b => some (min a b)
  | some a, none => some a
  | none, o => o

theorem find?_foldl_addEntry {entries : List (TagType × ℕ)} {ResSingleSet : ResMap}
    (hsorted : entries.Pairwise fun e e' => e.1 < e'.1) :
    (entries.foldl addEntry ResSingleSet).find? t =
      lower (OrderedMap.findEntry t entries) (ResSingleSet.find? t) := by
  have hadd : ∀ (m : ResMap) (Entry : TagType × ℕ) (t : TagType), (addEntry m Entry).find? t =
      if Entry.1 = t then lower (some Entry.2) (m.find? t) else m.find? t := by
    intro m Entry t
    unfold addEntry
    cases hfind : m.find? Entry.1 with
    | none =>
      dsimp only
      rw [OrderedMap.find?_insert]
      split_ifs with h
      · rw [← h, hfind]
        rfl
      · rfl
    | some Age =>
      dsimp only
      rw [OrderedMap.find?_insert]
      split_ifs with h
      · rw [← h, hfind]
        rfl
      · rfl
  rw [OrderedMap.find?_foldl_entries (v := fun _ Age o => lower (some Age) o) hadd hsorted]
  cases OrderedMap.findEntry t entries <;> rfl

/-- One program point lowers the resilience in each set. -/
theorem foldlM_addSet {Sets ResSet' : List ResMap} {n : ℕ}
    (h : (List.range n).foldlM (addSet Sets) ResSet = .ok ResSet') (i : ℕ) :
    ResSet'[i]?.map (OrderedMap.find? · t) = ResSet[i]?.map fun Map =>
      if i < n then lower ((Sets[i]?.getD .empty).find? t) (Map.find? t) else Map.find? t := by
  induction n generalizing ResSet' with
  | zero =>
    cases h
    simp
  | succ n ih =>
    rw [List.range_succ, List.foldlM_append] at h
    obtain ⟨next, hnext, h⟩ := bind_eq_ok.mp h
    rw [List.foldlM_cons] at h
    obtain ⟨last, hlast, h⟩ := bind_eq_ok.mp h
    cases h
    obtain ⟨Set, hset, hlast⟩ := bind_eq_ok.mp hlast
    obtain ⟨own, hown, hwrite⟩ := bind_eq_ok.mp hlast
    have hget := getElem?_of_write hwrite i
    have hi := ih hnext
    by_cases hin : n = i
    · subst hin
      rw [if_pos rfl] at hget
      rw [getElem?_of_read hown] at hi
      rw [hget, Option.map_some, find?_foldl_addEntry Set.sorted, getElem?_of_read hset]
      cases hfirst : ResSet[n]? with
      | none =>
        rw [hfirst] at hi
        cases hi
      | some Map =>
        rw [hfirst] at hi
        simp only [Option.map_some, Option.some_inj, lt_irrefl, if_false] at hi
        simp only [Option.map_some, Option.getD_some, Nat.lt_succ_self, if_true, hi]
        rfl
    · rw [if_neg hin] at hget
      rw [hget, hi]
      have : i < n ↔ i < n + 1 := by omega
      simp only [this]

/-- For each set and tag the least resilience over all program points is kept. -/
theorem computeResiliencePerSet_spec {N_SETS : ℕ} {ResPerPP : ResInfo}
    (h : computeResiliencePerSet N_SETS ResPerPP = .ok ResSet) {i : ℕ} (hi : i < N_SETS)
    (t : TagType) :
    ResSet[i]?.map (OrderedMap.find? · t) = some (resiliencesAt ResPerPP i t).min? := by
  unfold computeResiliencePerSet at h
  induction ResPerPP using List.reverseRecOn generalizing ResSet with
  | nil =>
    cases h
    simp [resiliencesAt, hi]
  | append_singleton ResPerPP Sets ih =>
    rw [List.foldlM_append] at h
    obtain ⟨next, hnext, h⟩ := bind_eq_ok.mp h
    rw [List.foldlM_cons] at h
    obtain ⟨last, hlast, h⟩ := bind_eq_ok.mp h
    cases h
    have hbefore := ih hnext
    rw [foldlM_addSet hlast]
    cases hmap : next[i]? with
    | none =>
      rw [hmap] at hbefore
      cases hbefore
    | some Map =>
      rw [hmap, Option.map_some, Option.some_inj] at hbefore
      rw [Option.map_some, if_pos hi, hbefore]
      unfold resiliencesAt
      rw [List.filterMap_append, List.filterMap_cons, List.filterMap_nil]
      generalize (Sets[i]?.getD .empty).find? t = o
      cases o with
      | none => rw [List.append_nil]; rfl
      | some a =>
        cases ResPerPP.filterMap fun Sets => (Sets[i]?.getD .empty).find? t with
        | nil => rfl
        | cons b l =>
          rw [List.cons_append, List.min?_cons', List.min?_cons', List.foldl_append]
          change some (some (min a _)) = some (some (min _ a))
          rw [min_comm]

end Resilience

section Examples

/-- Both sets have the tag with the same resilience at the only program point. -/
def sharedTag : ResInfo := [[OrderedMap.empty.insert 5 1, OrderedMap.empty.insert 5 1]]

/-- The tag is in no bucket. -/
theorem sharedTag_lost :
    ∃ buckets, computeTagsForResilience 2 sharedTag = .ok buckets ∧
      (∃ ResSet, computeResiliencePerSet 2 sharedTag = .ok ResSet ∧
        MinimumResilience ResSet 5 1) ∧ ∀ r, ¬InBucket buckets 5 r := by
  refine ⟨_, rfl, ⟨_, rfl, by decide, by decide⟩, fun r => ?_⟩
  have hbucket := bucketIs_sortTags sharedTag.flatten 5 r
  exact fun h => nomatch hbucket.mp h

theorem sharedTag_iff :
    (∃ buckets, computeTagsForResilience 2 sharedTag = .ok buckets ∧
      ∀ t, resiliences sharedTag.flatten t ≠ [] →
        InMinimumBucket sharedTag.flatten buckets t) ↔
    ∀ t r, MinimumResilience sharedTag.flatten t r →
      Odd ((resiliences sharedTag.flatten t).count r) :=
  computeTagsForResilience_iff 2 sharedTag rfl

end Examples

end CacheRelatedPreemptionDelay

end Llvmta
