import Mathlib.Data.List.Basic
import Mathlib.Order.Basic
import Mathlib.Tactic

/-!
# Ordered maps

A finite map is the list of its entries in the order of their keys. Lookups,
insertions, deletions and the joint walk over two maps are recursions on these
lists; `find?` of each result is all that a proof about them needs.
-/

/-- Entries with increasing keys. -/
@[ext] structure OrderedMap (κ β : Type*) [LinearOrder κ] where
  entries : List (κ × β)
  sorted : entries.Pairwise fun e e' => e.1 < e'.1
  deriving DecidableEq, Repr

namespace OrderedMap

variable {κ α β γ : Type*} [LinearOrder κ]

section Entries

/-- The value of a key in a list of entries. -/
def findEntry (k : κ) : List (κ × β) → Option β
  | [] => none
  | e :: l => if e.1 = k then some e.2 else findEntry k l

def insertEntry (k : κ) (b : β) : List (κ × β) → List (κ × β)
  | [] => [(k, b)]
  | e :: l =>
    if k < e.1 then (k, b) :: e :: l
    else if e.1 < k then e :: insertEntry k b l
    else (k, b) :: l

variable {k k' : κ} {b : β} {l : List (κ × β)}

theorem findEntry_cons_self (e : κ × β) (l : List (κ × β)) : findEntry e.1 (e :: l) = some e.2 :=
  if_pos rfl

theorem findEntry_cons_of_ne {e : κ × β} (h : e.1 ≠ k) (l : List (κ × β)) :
    findEntry k (e :: l) = findEntry k l := if_neg h

theorem findEntry_eq_none (h : ∀ e ∈ l, e.1 ≠ k) : findEntry k l = none := by
  induction l with
  | nil => rfl
  | cons e l ih =>
    rw [findEntry, if_neg (h e List.mem_cons_self)]
    exact ih fun e' he' => h e' (List.mem_cons_of_mem e he')

theorem mem_of_findEntry (h : findEntry k l = some b) : (k, b) ∈ l := by
  induction l with
  | nil => cases h
  | cons e l ih =>
    rw [findEntry] at h
    split_ifs at h with hk
    · cases h
      subst hk
      exact List.mem_cons_self
    · exact List.mem_cons_of_mem e (ih h)

/-- In a list of entries with increasing keys each key is found. -/
theorem findEntry_of_mem (hl : l.Pairwise fun e e' => e.1 < e'.1) (h : (k, b) ∈ l) :
    findEntry k l = some b := by
  induction l with
  | nil => exact absurd h List.not_mem_nil
  | cons e l ih =>
    obtain ⟨he, hl⟩ := List.pairwise_cons.mp hl
    rw [findEntry]
    rcases List.mem_cons.mp h with rfl | h
    · rw [if_pos rfl]
    · rw [if_neg (he _ h).ne]
      exact ih hl h

theorem mem_insertEntry {e : κ × β} (h : e ∈ insertEntry k b l) : e = (k, b) ∨ e ∈ l := by
  induction l with
  | nil => exact .inl (List.mem_singleton.mp h)
  | cons x l ih =>
    rw [insertEntry] at h
    split_ifs at h
    · exact List.mem_cons.mp h
    · rcases List.mem_cons.mp h with rfl | h
      · exact .inr List.mem_cons_self
      · exact (ih h).imp_right (List.mem_cons_of_mem x)
    · exact (List.mem_cons.mp h).imp_right (List.mem_cons_of_mem x)

theorem sorted_insertEntry (hl : l.Pairwise fun e e' => e.1 < e'.1) :
    (insertEntry k b l).Pairwise fun e e' => e.1 < e'.1 := by
  induction l with
  | nil => exact List.pairwise_singleton _ _
  | cons x l ih =>
    obtain ⟨hx, hrest⟩ := List.pairwise_cons.mp hl
    rw [insertEntry]
    split_ifs with hlt hgt
    · apply List.pairwise_cons.mpr ⟨_, hl⟩
      intro e he
      rcases List.mem_cons.mp he with rfl | he
      · exact hlt
      · exact hlt.trans (hx e he)
    · apply List.pairwise_cons.mpr ⟨_, ih hrest⟩
      intro e he
      rcases mem_insertEntry he with rfl | he
      · exact hgt
      · exact hx e he
    · have heq : x.1 = k := le_antisymm (not_lt.mp hlt) (not_lt.mp hgt)
      exact List.pairwise_cons.mpr ⟨fun e he => heq ▸ hx e he, hrest⟩

theorem findEntry_insertEntry (k' : κ) (hl : l.Pairwise fun e e' => e.1 < e'.1) :
    findEntry k' (insertEntry k b l) = if k = k' then some b else findEntry k' l := by
  induction l with
  | nil => rfl
  | cons x l ih =>
    obtain ⟨hx, hrest⟩ := List.pairwise_cons.mp hl
    rw [insertEntry]
    by_cases hk : k = k'
    · subst hk
      rw [if_pos rfl]
      split_ifs with hlt hgt
      · exact findEntry_cons_self (k, b) _
      · rw [findEntry_cons_of_ne hgt.ne, ih hrest, if_pos rfl]
      · exact findEntry_cons_self (k, b) _
    · have hcons (l : List (κ × β)) : findEntry k' ((k, b) :: l) = findEntry k' l :=
        findEntry_cons_of_ne hk l
      rw [if_neg hk]
      split_ifs with hlt hgt
      · exact hcons _
      · rw [findEntry, findEntry, ih hrest, if_neg hk]
      · have hxk : x.1 = k := le_antisymm (not_lt.mp hlt) (not_lt.mp hgt)
        rw [hcons, findEntry_cons_of_ne fun h => hk (hxk.symm.trans h)]

theorem findEntry_filter (p : κ → β → Bool) (hl : l.Pairwise fun e e' => e.1 < e'.1) :
    findEntry k (l.filter fun e => p e.1 e.2) = (findEntry k l).filter (p k) := by
  induction l with
  | nil => rfl
  | cons x l ih =>
    obtain ⟨hx, hrest⟩ := List.pairwise_cons.mp hl
    by_cases hk : x.1 = k
    · subst hk
      have hnone : findEntry x.1 l = none := findEntry_eq_none fun e he => (hx e he).ne'
      rw [findEntry, if_pos rfl, List.filter_cons]
      split_ifs with hp
      · rw [findEntry, if_pos rfl, Option.filter_some, if_pos hp]
      · rw [ih hrest, hnone, Option.filter_some, if_neg hp]
        rfl
    · rw [findEntry, if_neg hk, List.filter_cons, ← ih hrest]
      split_ifs with hp
      · rw [findEntry, if_neg hk]
      · rfl

theorem findEntry_map (f : κ → β → γ) :
    findEntry k (l.map fun e => (e.1, f e.1 e.2)) = (findEntry k l).map (f k) := by
  induction l with
  | nil => rfl
  | cons x l ih =>
    rw [List.map_cons, findEntry, findEntry, ih]
    split_ifs with hk
    · rw [Option.map_some, hk]
    · rfl

/-- One entry of the first map: the entries of the second one that lie in front of
it are passed, `rest` walks over what follows. -/
def walkEntry (f : κ → Option α → Option β → γ) (x : κ × α)
    (rest : List (κ × β) → List (κ × γ)) : List (κ × β) → List (κ × γ)
  | [] => (x.1, f x.1 (some x.2) none) :: rest []
  | y :: ys =>
    if x.1 < y.1 then (x.1, f x.1 (some x.2) none) :: rest (y :: ys)
    else if y.1 < x.1 then (y.1, f y.1 none (some y.2)) :: walkEntry f x rest ys
    else (x.1, f x.1 (some x.2) (some y.2)) :: rest ys

/-- The joint walk over two maps in the order of the keys. -/
def walk (f : κ → Option α → Option β → γ) : List (κ × α) → List (κ × β) → List (κ × γ)
  | [] => List.map fun y => (y.1, f y.1 none (some y.2))
  | x :: xs => walkEntry f x (walk f xs)

variable {f : κ → Option α → Option β → γ} {xs : List (κ × α)} {ys : List (κ × β)}

/-- The walk has entries for the keys of either map only. -/
theorem key_of_mem_walk {e : κ × γ} (h : e ∈ walk f xs ys) :
    (∃ x ∈ xs, x.1 = e.1) ∨ ∃ y ∈ ys, y.1 = e.1 := by
  induction xs generalizing ys with
  | nil =>
    obtain ⟨y, hy, rfl⟩ := List.mem_map.mp h
    exact .inr ⟨y, hy, rfl⟩
  | cons x xs ih =>
    have hcons {ys : List (κ × β)} (h : e ∈ walk f xs ys) :
        (∃ x' ∈ x :: xs, x'.1 = e.1) ∨ ∃ y ∈ ys, y.1 = e.1 := by
      rcases ih h with ⟨x', hx', hkey⟩ | hy
      · exact .inl ⟨x', List.mem_cons_of_mem x hx', hkey⟩
      · exact .inr hy
    rw [walk] at h
    induction ys with
    | nil =>
      rcases List.mem_cons.mp h with rfl | h
      · exact .inl ⟨x, List.mem_cons_self, rfl⟩
      · exact hcons h
    | cons y ys ihys =>
      rw [walkEntry] at h
      split_ifs at h
      · rcases List.mem_cons.mp h with rfl | h
        · exact .inl ⟨x, List.mem_cons_self, rfl⟩
        · exact hcons h
      · rcases List.mem_cons.mp h with rfl | h
        · exact .inr ⟨y, List.mem_cons_self, rfl⟩
        · exact (ihys h).imp_right fun ⟨y', hy', hkey⟩ => ⟨y', List.mem_cons_of_mem y hy', hkey⟩
      · rcases List.mem_cons.mp h with rfl | h
        · exact .inl ⟨x, List.mem_cons_self, rfl⟩
        · exact (hcons h).imp_right fun ⟨y', hy', hkey⟩ => ⟨y', List.mem_cons_of_mem y hy', hkey⟩

theorem sorted_walk (hxs : xs.Pairwise fun e e' => e.1 < e'.1)
    (hys : ys.Pairwise fun e e' => e.1 < e'.1) :
    (walk f xs ys).Pairwise fun e e' => e.1 < e'.1 := by
  induction xs generalizing ys with
  | nil => exact List.pairwise_map.mpr hys
  | cons x xs ih =>
    obtain ⟨hx, hxs⟩ := List.pairwise_cons.mp hxs
    -- a key in front of what is left of both maps
    have hfront {k : κ} {c : γ} {ys : List (κ × β)} (hkx : ∀ x' ∈ xs, k < x'.1)
        (hky : ∀ y ∈ ys, k < y.1) (hys : ys.Pairwise fun e e' => e.1 < e'.1) :
        ((k, c) :: walk f xs ys).Pairwise fun e e' => e.1 < e'.1 := by
      apply List.pairwise_cons.mpr ⟨_, ih hxs hys⟩
      intro e he
      rcases key_of_mem_walk he with ⟨x', hx', hkey⟩ | ⟨y, hy, hkey⟩
      · exact hkey ▸ hkx x' hx'
      · exact hkey ▸ hky y hy
    induction ys with
    | nil => exact hfront hx (fun y hy => absurd hy List.not_mem_nil) .nil
    | cons y ys ihys =>
      obtain ⟨hy, hys'⟩ := List.pairwise_cons.mp hys
      rw [walk, walkEntry]
      split_ifs with hlt hgt
      · apply hfront hx _ hys
        intro y' hy'
        rcases List.mem_cons.mp hy' with rfl | hy'
        · exact hlt
        · exact hlt.trans (hy y' hy')
      · apply List.pairwise_cons.mpr ⟨_, ihys hys'⟩
        intro e he
        have hkeys : (∃ x' ∈ x :: xs, x'.1 = e.1) ∨ ∃ y' ∈ ys, y'.1 = e.1 := key_of_mem_walk he
        rcases hkeys with ⟨x', hx', hkey⟩ | ⟨y', hy', hkey⟩
        · rcases List.mem_cons.mp hx' with rfl | hx'
          · exact hkey ▸ hgt
          · exact hkey ▸ hgt.trans (hx x' hx')
        · exact hkey ▸ hy y' hy'
      · have heq : x.1 = y.1 := le_antisymm (not_lt.mp hgt) (not_lt.mp hlt)
        exact hfront hx (fun y' hy' => heq ▸ hy y' hy') hys'

/-- The value the walk gives a key: none outside both maps. -/
def combine (f : κ → Option α → Option β → γ) (k : κ) : Option α → Option β → Option γ
  | none, none => none
  | a, b => some (f k a b)

theorem findEntry_walk (k : κ) (hxs : xs.Pairwise fun e e' => e.1 < e'.1)
    (hys : ys.Pairwise fun e e' => e.1 < e'.1) :
    findEntry k (walk f xs ys) = combine f k (findEntry k xs) (findEntry k ys) := by
  induction xs generalizing ys with
  | nil =>
    rw [walk, findEntry_map fun k b => f k none (some b)]
    cases findEntry k ys <;> rfl
  | cons x xs ih =>
    obtain ⟨hx, hxs⟩ := List.pairwise_cons.mp hxs
    -- the walk outputs a key in front of it, with what it has in either map
    have hhead {ys : List (κ × β)} {k' : κ} {c : γ} {l : List (κ × γ)} {a : Option α}
        {b : Option β}
        (hself : combine f k' (findEntry k' (x :: xs)) (findEntry k' ys) = some c)
        (hrest : k' ≠ k → findEntry k l = combine f k a b)
        (ha : k' ≠ k → a = findEntry k (x :: xs)) (hb : k' ≠ k → b = findEntry k ys) :
        findEntry k ((k', c) :: l) = combine f k (findEntry k (x :: xs)) (findEntry k ys) := by
      by_cases hk : k' = k
      · subst hk
        rw [hself]
        exact findEntry_cons_self (k', c) l
      · rw [← ha hk, ← hb hk, ← hrest hk]
        exact findEntry_cons_of_ne hk l
    induction ys with
    | nil =>
      apply hhead _ (fun _ => ih hxs .nil) (fun hk => (findEntry_cons_of_ne hk xs).symm)
        (fun _ => rfl)
      rw [findEntry_cons_self]
      rfl
    | cons y ys ihys =>
      obtain ⟨hy, hys'⟩ := List.pairwise_cons.mp hys
      rw [walk, walkEntry]
      split_ifs with hlt hgt
      · have hnone : findEntry x.1 (y :: ys) = none := by
          apply findEntry_eq_none
          intro e he
          rcases List.mem_cons.mp he with rfl | he
          · exact hlt.ne'
          · exact (hlt.trans (hy e he)).ne'
        apply hhead _ (fun _ => ih hxs hys) (fun hk => (findEntry_cons_of_ne hk xs).symm)
          (fun _ => rfl)
        rw [findEntry_cons_self, hnone]
        rfl
      · have hnone : findEntry y.1 (x :: xs) = none := by
          apply findEntry_eq_none
          intro e he
          rcases List.mem_cons.mp he with rfl | he
          · exact hgt.ne'
          · exact (hgt.trans (hx e he)).ne'
        apply hhead _ (fun _ => ihys hys') (fun _ => rfl)
          (fun hk => (findEntry_cons_of_ne hk ys).symm)
        rw [findEntry_cons_self, hnone]
        rfl
      · have heq : y.1 = x.1 := le_antisymm (not_lt.mp hlt) (not_lt.mp hgt)
        apply hhead _ (fun _ => ih hxs hys') (fun hk => (findEntry_cons_of_ne hk xs).symm)
          (fun hk => (findEntry_cons_of_ne (fun h => hk (heq.symm.trans h)) ys).symm)
        rw [findEntry_cons_self, ← heq, findEntry_cons_self]
        rfl

/-- The values of computations that all succeed, or the first error. -/
def sequenceEntries {ε : Type*} : List (κ × Except ε β) → Except ε (List (κ × β))
  | [] => .ok []
  | (_, .error e) :: _ => .error e
  | (k, .ok b) :: l => (sequenceEntries l).map fun rest => (k, b) :: rest

omit [LinearOrder κ] in
theorem sequenceEntries_eq_ok {ε : Type*} {l : List (κ × Except ε β)} {l' : List (κ × β)}
    (h : sequenceEntries l = .ok l') : l = l'.map fun e => (e.1, .ok e.2) := by
  induction l generalizing l' with
  | nil =>
    cases h
    rfl
  | cons e l ih =>
    obtain ⟨k, e | b⟩ := e
    · cases h
    · cases hrest : sequenceEntries l with
      | error err =>
        rw [sequenceEntries, hrest] at h
        cases h
      | ok rest =>
        rw [sequenceEntries, hrest] at h
        cases h
        rw [List.map_cons, ih hrest]

omit [LinearOrder κ] in
theorem sequenceEntries_map_ok {ε : Type*} (l : List (κ × β)) :
    sequenceEntries (l.map fun e => (e.1, (.ok e.2 : Except ε β))) = .ok l := by
  induction l with
  | nil => rfl
  | cons e l ih =>
    rw [List.map_cons, sequenceEntries, ih]
    rfl

end Entries

def empty : OrderedMap κ β := ⟨[], .nil⟩

def find? (m : OrderedMap κ β) (k : κ) : Option β := findEntry k m.entries

def insert (m : OrderedMap κ β) (k : κ) (b : β) : OrderedMap κ β :=
  ⟨insertEntry k b m.entries, sorted_insertEntry m.sorted⟩

/-- The entries that satisfy `p`. -/
def filter (m : OrderedMap κ β) (p : κ → β → Bool) : OrderedMap κ β :=
  ⟨m.entries.filter fun e => p e.1 e.2, m.sorted.filter _⟩

def erase (m : OrderedMap κ β) (k : κ) : OrderedMap κ β := m.filter fun k' _ => k' ≠ k

def mapValues (m : OrderedMap κ β) (f : κ → β → γ) : OrderedMap κ γ :=
  ⟨m.entries.map fun e => (e.1, f e.1 e.2), List.pairwise_map.mpr m.sorted⟩

/-- The joint walk over two maps; `f` gets the values that a key has in them. -/
def merge (f : κ → Option α → Option β → γ) (m : OrderedMap κ α) (m' : OrderedMap κ β) :
    OrderedMap κ γ :=
  ⟨walk f m.entries m'.entries, sorted_walk m.sorted m'.sorted⟩

/-- A map of computations that all succeed. -/
def sequence {ε : Type*} (m : OrderedMap κ (Except ε β)) : Except ε (OrderedMap κ β) :=
  match h : sequenceEntries m.entries with
  | .error e => .error e
  | .ok l => .ok ⟨l, by
      have hsorted := m.sorted
      rw [sequenceEntries_eq_ok h, List.pairwise_map] at hsorted
      exact hsorted⟩

def keys (m : OrderedMap κ β) : List κ := m.entries.map Prod.fst

variable {m : OrderedMap κ β} {k : κ} {b : β}

@[simp] theorem find?_empty (k : κ) : (empty : OrderedMap κ β).find? k = none := rfl

theorem mem_entries_iff : (k, b) ∈ m.entries ↔ m.find? k = some b :=
  ⟨findEntry_of_mem m.sorted, mem_of_findEntry⟩

theorem find?_insert (m : OrderedMap κ β) (k : κ) (b : β) (k' : κ) :
    (m.insert k b).find? k' = if k = k' then some b else m.find? k' :=
  findEntry_insertEntry k' m.sorted

@[simp] theorem find?_insert_self (m : OrderedMap κ β) (k : κ) (b : β) :
    (m.insert k b).find? k = some b := by
  rw [find?_insert, if_pos rfl]

theorem find?_insert_of_ne {k' : κ} (h : k ≠ k') : (m.insert k b).find? k' = m.find? k' := by
  rw [find?_insert, if_neg h]

@[simp] theorem find?_filter (m : OrderedMap κ β) (p : κ → β → Bool) (k : κ) :
    (m.filter p).find? k = (m.find? k).filter (p k) :=
  findEntry_filter p m.sorted

@[simp] theorem find?_erase (m : OrderedMap κ β) (k k' : κ) :
    (m.erase k).find? k' = if k' = k then none else m.find? k' := by
  rw [erase, find?_filter]
  cases m.find? k' with
  | none => simp
  | some b => split_ifs with h <;> simp [h]

@[simp] theorem find?_mapValues (m : OrderedMap κ β) (f : κ → β → γ) (k : κ) :
    (m.mapValues f).find? k = (m.find? k).map (f k) :=
  findEntry_map f

theorem find?_merge (f : κ → Option α → Option β → γ) (m : OrderedMap κ α) (m' : OrderedMap κ β)
    (k : κ) : (merge f m m').find? k = combine f k (m.find? k) (m'.find? k) :=
  findEntry_walk k m.sorted m'.sorted

theorem sequence_eq_ok {ε : Type*} {m : OrderedMap κ (Except ε β)} {m' : OrderedMap κ β}
    (h : m.sequence = .ok m') (k : κ) : m.find? k = (m'.find? k).map .ok := by
  unfold sequence at h
  split at h
  · cases h
  · next l hl =>
    cases h
    change findEntry k m.entries = (findEntry k l).map .ok
    rw [sequenceEntries_eq_ok hl]
    exact findEntry_map fun _ b => Except.ok b

/-- Computing a value for each entry keeps the keys. -/
theorem sequence_mapValues {ε : Type*} {m : OrderedMap κ α} {f : κ → α → Except ε β}
    {m' : OrderedMap κ β} (h : (m.mapValues f).sequence = .ok m') (k : κ) :
    m.find? k = none ∧ m'.find? k = none ∨
      ∃ a b, m.find? k = some a ∧ f k a = .ok b ∧ m'.find? k = some b := by
  have hfind := sequence_eq_ok h k
  rw [find?_mapValues] at hfind
  cases ha : m.find? k with
  | none =>
    rw [ha, Option.map_none, eq_comm, Option.map_eq_none_iff] at hfind
    exact .inl ⟨rfl, hfind⟩
  | some a =>
    rw [ha, Option.map_some, eq_comm, Option.map_eq_some_iff] at hfind
    obtain ⟨b, hb, hf⟩ := hfind
    exact .inr ⟨a, b, rfl, hf.symm, hb⟩

/-- Computing a joint value for each key of either map. -/
theorem sequence_merge {ε : Type*} {m : OrderedMap κ α} {m' : OrderedMap κ β}
    {f : κ → Option α → Option β → Except ε γ} {u : OrderedMap κ γ}
    (h : (merge f m m').sequence = .ok u) (k : κ) :
    m.find? k = none ∧ m'.find? k = none ∧ u.find? k = none ∨
      ∃ c, f k (m.find? k) (m'.find? k) = .ok c ∧ u.find? k = some c := by
  have hfind := sequence_eq_ok h k
  rw [find?_merge] at hfind
  have hsome (hcombine : combine f k (m.find? k) (m'.find? k) =
      some (f k (m.find? k) (m'.find? k))) :
      ∃ c, f k (m.find? k) (m'.find? k) = .ok c ∧ u.find? k = some c := by
    rw [hcombine, eq_comm, Option.map_eq_some_iff] at hfind
    obtain ⟨c, hc, hf⟩ := hfind
    exact ⟨c, hf.symm, hc⟩
  cases ha : m.find? k with
  | none =>
    cases hb : m'.find? k with
    | none =>
      rw [ha, hb, combine, eq_comm, Option.map_eq_none_iff] at hfind
      exact .inl ⟨rfl, rfl, hfind⟩
    | some b =>
      rw [ha, hb] at hsome
      exact .inr (hsome rfl)
  | some a =>
    rw [ha] at hsome
    exact .inr (hsome rfl)

theorem mem_keys {k : κ} : k ∈ m.keys ↔ m.find? k ≠ none := by
  rw [keys, List.mem_map]
  constructor
  · rintro ⟨e, he, rfl⟩
    have hfind : m.find? e.1 = some e.2 := mem_entries_iff.mp he
    rw [hfind]
    exact Option.some_ne_none _
  · intro h
    obtain ⟨b, hb⟩ := Option.ne_none_iff_exists'.mp h
    exact ⟨(k, b), mem_entries_iff.mpr hb, rfl⟩

theorem nodup_keys (m : OrderedMap κ β) : m.keys.Nodup :=
  (List.pairwise_map.mpr m.sorted).imp fun h => h.ne

/-- The keys are in order, so that equal sets of keys are equal lists. -/
theorem keys_eq {m' : OrderedMap κ γ} (h : ∀ k, m.find? k = none ↔ m'.find? k = none) :
    m.keys = m'.keys := by
  have hsorted : m.keys.Pairwise (· < ·) := List.pairwise_map.mpr m.sorted
  have hsorted' : m'.keys.Pairwise (· < ·) := List.pairwise_map.mpr m'.sorted
  have hperm : m.keys.Perm m'.keys := by
    apply (List.perm_ext_iff_of_nodup (hsorted.imp fun h => h.ne) (hsorted'.imp fun h => h.ne)).mpr
    intro k
    rw [mem_keys, mem_keys, ne_eq, ne_eq, h]
  exact hperm.eq_of_pairwise (fun a b _ _ hab hba => absurd hba hab.asymm) hsorted hsorted'

/-- A loop that stores a value for each key of a list. -/
theorem find?_foldl_insert (f : κ → β) (l : List κ) (m : OrderedMap κ β) (k : κ) :
    (l.foldl (fun m k => m.insert k (f k)) m).find? k =
      if k ∈ l then some (f k) else m.find? k := by
  induction l generalizing m with
  | nil => simp
  | cons k' l ih =>
    rw [List.foldl_cons, ih, find?_insert]
    by_cases hk : k' = k
    · simp [hk]
    · simp [hk, Ne.symm hk]

/-- A loop over the entries of a map in which each one changes the value of its own key. -/
theorem find?_foldl_entries {step : OrderedMap κ γ → κ × β → OrderedMap κ γ}
    {v : κ → β → Option γ → Option γ}
    (hstep : ∀ m e k, (step m e).find? k =
      if e.1 = k then v k e.2 (m.find? k) else m.find? k)
    {l : List (κ × β)} (hl : l.Pairwise fun e e' => e.1 < e'.1) (m : OrderedMap κ γ) (k : κ) :
    (l.foldl step m).find? k =
      (findEntry k l).elim (m.find? k) fun b => v k b (m.find? k) := by
  induction l generalizing m with
  | nil => rfl
  | cons e l ih =>
    obtain ⟨he, hl⟩ := List.pairwise_cons.mp hl
    rw [List.foldl_cons, ih hl, hstep]
    by_cases hk : e.1 = k
    · have hnone : findEntry k l = none := findEntry_eq_none fun e' he' => hk ▸ (he e' he').ne'
      subst hk
      rw [hnone, findEntry_cons_self, if_pos rfl]
      rfl
    · rw [findEntry_cons_of_ne hk, if_neg hk]

/-- A map is what it has for each key. -/
theorem ext_find? {m' : OrderedMap κ β} (h : ∀ k, m.find? k = m'.find? k) : m = m' := by
  have hnodup (m : OrderedMap κ β) : m.entries.Nodup :=
    List.Pairwise.imp (fun he heq => he.ne (congrArg Prod.fst heq)) m.sorted
  have hperm : m.entries.Perm m'.entries := by
    apply (List.perm_ext_iff_of_nodup (hnodup m) (hnodup m')).mpr
    rintro ⟨k, b⟩
    rw [mem_entries_iff, mem_entries_iff, h]
  ext1
  exact hperm.eq_of_pairwise (fun a b _ _ hab hba => absurd hba hab.asymm) m.sorted m'.sorted

/-- Computations that all succeed give the map of their results. -/
theorem sequence_of_ok {ε : Type*} {m : OrderedMap κ (Except ε β)} {m' : OrderedMap κ β}
    (h : ∀ k, m.find? k = (m'.find? k).map .ok) : m.sequence = .ok m' := by
  have hm : m = m'.mapValues fun _ b => .ok b := by
    apply ext_find?
    intro k
    rw [h, find?_mapValues]
  have hentries : sequenceEntries m.entries = .ok m'.entries := by
    rw [hm]
    exact sequenceEntries_map_ok m'.entries
  unfold sequence
  split
  · next e he =>
    rw [hentries] at he
    cases he
  · next l hl =>
    rw [hentries] at hl
    cases hl
    rfl

/-- Joining a map with itself, where each value is joined to itself. -/
theorem sequence_merge_self {ε : Type*} {f : κ → Option β → Option β → Except ε β}
    (h : ∀ k b, m.find? k = some b → f k (some b) (some b) = .ok b) :
    (merge f m m).sequence = .ok m := by
  apply sequence_of_ok
  intro k
  rw [find?_merge]
  cases hb : m.find? k with
  | none => rfl
  | some b =>
    change some (f k (some b) (some b)) = _
    rw [h k b hb]
    rfl

theorem eq_of_keys_of_values {m' : OrderedMap κ β} (hkeys : m.keys = m'.keys)
    (hvalues : m.entries.map Prod.snd = m'.entries.map Prod.snd) : m = m' := by
  ext1
  have hkeys : m.entries.map Prod.fst = m'.entries.map Prod.fst := hkeys
  calc m.entries = (m.entries.map Prod.fst).zip (m.entries.map Prod.snd) :=
        List.zip_of_prod rfl rfl
    _ = (m'.entries.map Prod.fst).zip (m'.entries.map Prod.snd) := by rw [hkeys, hvalues]
    _ = m'.entries := (List.zip_of_prod rfl rfl).symm

end OrderedMap
