import Llvmta.Memory.MultiScopeSoundness

/-!
# Runs over several scopes

A run enters and leaves scopes and accesses the cache set `index`. It describes, for
every open scope, how often it has been entered and the paths since it was.
-/

namespace Llvmta

open Checked Lru

variable {T : CacheTraits} {P : StaticAddressProvider} {mode : ArrayPersistenceAnaType}
  {index : ℕ}

/-- The scopes that are open: how often each was entered, and its path. -/
abbrev OpenScopes := ℕ → Option (ℕ × ScopePath)

namespace OpenScopes

def access (c : OpenScopes) (e : ℕ × Bool) : OpenScopes :=
  fun scope => (c scope).map fun p => (p.1, e :: p.2)

/-- A scope that is entered again goes on with its path. -/
def enter (c : OpenScopes) (scope : ℕ) : OpenScopes :=
  Function.update c scope (some (match c scope with
    | none => (1, [])
    | some p => (p.1 + 1, p.2)))

def leave (c : OpenScopes) (scope : ℕ) : OpenScopes :=
  Function.update c scope ((c scope).bind fun p => if 1 < p.1 then some (p.1 - 1, p.2) else none)

end OpenScopes

namespace MultiScopePersistence

/-- Precise accesses are routed to the set of their line. -/
inductive ScopeOp (T : CacheTraits) (index : ℕ) where
  | enterScope (scope : ℕ)
  | leaveScope (scope : ℕ)
  | update (addr : AbstractAddress) (precise : addr.isPrecise = true)
      (inSet : getindex T addr.interval.lower = index) (load_store : AccessType)
      (wantReport : Bool) (assumption : Classification)
  | potentialUpdate (addr : AbstractAddress) (load_store : AccessType) (wantReport : Bool)

variable {σ : Type} (A : PersistenceAnalysis σ) (T P index) in
/-- The analysis of the set `index` for all scopes. -/
def analysis : Collecting.Analysis Unit (ScopeOp T index) (MultiScopePersistence σ) OpenScopes
    Fault where
  start _ := new
  step
    | .enterScope scope, m => .ok (m.enterScope A scope)
    | .leaveScope scope, m => m.leaveScope scope
    | .update addr _ _ load_store wantReport assumption, m =>
      Prod.fst <$> m.update A addr load_store wantReport assumption
    | .potentialUpdate addr load_store wantReport, m =>
      Prod.fst <$> m.potentialUpdate A addr load_store wantReport
  join := join A
  described _ := {fun _ => none}
  concrete
    | .enterScope scope, c, c' => c' = c.enter scope
    | .leaveScope scope, c, c' => c' = c.leave scope
    | .update addr _ _ _ _ _, c, c' => c' = c.access (getTag T addr.interval.lower, true)
    | .potentialUpdate addr _ _, c, c' =>
      c' = c ∨ ∃ t, MayTouch T P index addr t ∧ c' = c.access (t, false)

variable {σ : Type} {A : PersistenceAnalysis σ} {W : σ → Prop} {Q : σ → ScopePath → Prop}
  {m m' : MultiScopePersistence σ} {K : Set OpenScopes}

/-- What is stored for a scope agrees with what is open. -/
inductive Agrees (W : σ → Prop) (Q : σ → ScopePath → Prop) :
    Option σ → Option ℕ → Option (ℕ × ScopePath) → Prop where
  | closed : Agrees W Q none none none
  | opened {i : σ} {n : ℕ} {π : ScopePath} (hW : W i) (hQ : Q i π) :
      Agrees W Q (some i) (some n) (some (n, π))

/-- The state agrees with all open scopes it describes. -/
def Tracks (W : σ → Prop) (Q : σ → ScopePath → Prop) (m : MultiScopePersistence σ)
    (K : Set OpenScopes) : Prop :=
  K.Nonempty ∧ ∀ c ∈ K, ∀ scope,
    Agrees W Q (m.scopes2info.find? scope) (m.scopes2entercount.find? scope) (c scope)

theorem tracks_new : Tracks W Q (new : MultiScopePersistence σ) {fun _ => none} := by
  refine ⟨Set.singleton_nonempty _, ?_⟩
  rintro c rfl scope
  exact .closed

theorem Tracks.enterScope (hA : A.Sound T P index W Q) (h : Tracks W Q m K) (scope : ℕ) :
    Tracks W Q (m.enterScope A scope) {c' | ∃ c ∈ K, c' = c.enter scope} := by
  obtain ⟨⟨c₀, hc₀⟩, hK⟩ := h
  refine ⟨⟨_, c₀, hc₀, rfl⟩, ?_⟩
  rintro _ ⟨c, hc, rfl⟩ s
  have hscope := hK c hc scope
  have hs := hK c hc s
  unfold MultiScopePersistence.enterScope OpenScopes.enter
  generalize hinfo : m.scopes2info.find? scope = info at hscope
  generalize hcount : m.scopes2entercount.find? scope = count at hscope
  generalize hopen : c scope = o at hscope
  by_cases hne : scope = s
  · subst hne
    cases hscope with
    | closed =>
      simp only [OrderedMap.find?_insert_self, Function.update_self]
      exact .opened hA.new.1 hA.new.2
    | opened hW hQ =>
      simp only [hinfo, OrderedMap.find?_insert_self, Function.update_self, Option.getD_some]
      exact .opened hW hQ
  · rw [Function.update_of_ne (Ne.symm hne)]
    cases hscope with
    | closed =>
      simp only [OrderedMap.find?_insert_of_ne hne]
      exact hs
    | opened hW hQ =>
      simp only [OrderedMap.find?_insert_of_ne hne]
      exact hs

theorem Tracks.leaveScope (h : Tracks W Q m K) {scope : ℕ} (hm : m.leaveScope scope = .ok m') :
    Tracks W Q m' {c' | ∃ c ∈ K, c' = c.leave scope} := by
  obtain ⟨⟨c₀, hc₀⟩, hK⟩ := h
  refine ⟨⟨_, c₀, hc₀, rfl⟩, ?_⟩
  rintro _ ⟨c, hc, rfl⟩ s
  have hscope := hK c hc scope
  have hs := hK c hc s
  obtain ⟨_, _, hm⟩ := bind_eq_ok.mp hm
  unfold OpenScopes.leave
  generalize hinfo : m.scopes2info.find? scope = info at hscope
  generalize hcount : m.scopes2entercount.find? scope = count at hscope hm
  generalize hopen : c scope = o at hscope
  cases hscope with
  | closed => cases hm
  | @opened i n π hW hQ =>
    dsimp only at hm
    rw [Option.bind_some]
    by_cases hn : 1 < n
    · rw [if_pos hn] at hm ⊢
      cases hm
      by_cases hne : scope = s
      · subst hne
        rw [hinfo, OrderedMap.find?_insert_self, Function.update_self]
        exact .opened hW hQ
      · rw [OrderedMap.find?_insert_of_ne hne, Function.update_of_ne (Ne.symm hne)]
        exact hs
    · rw [if_neg hn] at hm ⊢
      cases hm
      rw [OrderedMap.find?_erase, OrderedMap.find?_erase]
      by_cases hne : s = scope
      · subst hne
        rw [if_pos rfl, if_pos rfl, Function.update_self]
        exact .closed
      · rw [if_neg hne, if_neg hne, Function.update_of_ne hne]
        exact hs

/-- The analyses of all open scopes make the step that takes each path on. -/
theorem Agrees.step {f : σ → Except Fault σ} {c : Option (ℕ × ScopePath)}
    {info info' : OrderedMap ℕ σ} {count : Option ℕ} {scope : ℕ}
    (h : Agrees W Q (info.find? scope) count c)
    (hinfo : (info.mapValues fun _ i => f i).sequence = .ok info')
    (extend : ScopePath → ScopePath)
    (hf : ∀ i i', W i → f i = .ok i' → W i' ∧ ∀ π, Q i π → Q i' (extend π)) :
    Agrees W Q (info'.find? scope) count (c.map fun p => (p.1, extend p.2)) := by
  rcases OrderedMap.sequence_mapValues hinfo scope with ⟨hnone, hnone'⟩ | ⟨i, i', hi, hstep, hi'⟩
  · rw [hnone] at h
    rw [hnone']
    cases h
    exact .closed
  · rw [hi] at h
    rw [hi']
    cases h with
    | opened hW hQ =>
      obtain ⟨hW', hQ'⟩ := hf i i' hW hstep
      exact .opened hW' (hQ' _ hQ)

theorem Tracks.update (hA : A.Sound T P index W Q) (h : Tracks W Q m K) {addr : AbstractAddress}
    (hprecise : addr.isPrecise = true) (hin : getindex T addr.interval.lower = index)
    {load_store : AccessType} {wantReport : Bool} {assumption : Classification}
    {report : Option UpdateReport}
    (hm : m.update A addr load_store wantReport assumption = .ok (m', report)) :
    Tracks W Q m' {c' | ∃ c ∈ K, c' = c.access (getTag T addr.interval.lower, true)} := by
  obtain ⟨⟨c₀, hc₀⟩, hK⟩ := h
  refine ⟨⟨_, c₀, hc₀, rfl⟩, ?_⟩
  rintro _ ⟨c, hc, rfl⟩ s
  obtain ⟨info, hinfo, hm⟩ := bind_eq_ok.mp hm
  cases hm
  apply (hK c hc s).step hinfo (List.cons (getTag T addr.interval.lower, true))
  intro i i' hW hstep
  obtain ⟨_, hstep⟩ := fst_map_eq_ok hstep
  exact hA.update i addr load_store assumption i' _ hW hprecise hin hstep

theorem Tracks.potentialUpdate (hA : A.Sound T P index W Q) (h : Tracks W Q m K)
    {addr : AbstractAddress} {load_store : AccessType} {wantReport : Bool}
    {report : Option UpdateReport}
    (hm : m.potentialUpdate A addr load_store wantReport = .ok (m', report)) :
    Tracks W Q m' {c' | ∃ c ∈ K,
      c' = c ∨ ∃ t, MayTouch T P index addr t ∧ c' = c.access (t, false)} := by
  obtain ⟨⟨c₀, hc₀⟩, hK⟩ := h
  refine ⟨⟨_, c₀, hc₀, .inl rfl⟩, ?_⟩
  obtain ⟨info, hinfo, hm⟩ := bind_eq_ok.mp hm
  cases hm
  have hsound {i i' : σ} (hW : W i)
      (hstep : Prod.fst <$> A.potentialUpdate i addr load_store false = .ok i') :
      W i' ∧ ∀ π, Q i π → Q i' π ∧ ∀ t, MayTouch T P index addr t → Q i' ((t, false) :: π) := by
    obtain ⟨_, hstep⟩ := fst_map_eq_ok hstep
    exact hA.potentialUpdate i addr load_store i' _ hW hstep
  rintro c' ⟨c, hc, hc'⟩ s
  rcases hc' with rfl | ⟨t, ht, rfl⟩
  · have hstay : Agrees W Q (info.find? s) (m.scopes2entercount.find? s)
        ((c' s).map fun p => (p.1, id p.2)) := by
      apply (hK c' hc s).step hinfo id
      intro i i' hW hstep
      obtain ⟨hW', hQ⟩ := hsound hW hstep
      exact ⟨hW', fun π hπ => (hQ π hπ).1⟩
    rwa [show (fun p : ℕ × ScopePath => (p.1, id p.2)) = id from rfl, Option.map_id_fun] at hstay
  · apply (hK c hc s).step hinfo (List.cons (t, false))
    intro i i' hW hstep
    obtain ⟨hW', hQ⟩ := hsound hW hstep
    exact ⟨hW', fun π hπ => (hQ π hπ).2 t ht⟩

/-- The counts of the scopes have the keys of the analyses. -/
theorem Tracks.keys_eq (h : Tracks W Q m K) : m.scopes2entercount.keys = m.scopes2info.keys := by
  obtain ⟨⟨c, hc⟩, hK⟩ := h
  apply OrderedMap.keys_eq
  intro scope
  have hscope := hK c hc scope
  generalize m.scopes2info.find? scope = info at hscope ⊢
  generalize m.scopes2entercount.find? scope = count at hscope ⊢
  generalize c scope = o at hscope
  cases hscope <;> simp

theorem Tracks.join (hA : A.Sound T P index W Q) {L : Set OpenScopes} {y u : MultiScopePersistence σ}
    (hm : Tracks W Q m K) (hy : Tracks W Q y L) (hu : m.join A y = .ok u) :
    Tracks W Q u (K ∪ L) := by
  have hkeys := hm.keys_eq
  have hkeys' := hy.keys_eq
  obtain ⟨⟨c₀, hc₀⟩, hK⟩ := hm
  obtain ⟨⟨d₀, hd₀⟩, hL⟩ := hy
  obtain ⟨_, _, hu⟩ := bind_eq_ok.mp hu
  obtain ⟨_, hvalues, hu⟩ := bind_eq_ok.mp hu
  obtain ⟨_, hscopes, hu⟩ := bind_eq_ok.mp hu
  obtain ⟨info, hinfo, hu⟩ := bind_eq_ok.mp hu
  cases hu
  have hcounts : m.scopes2entercount = y.scopes2entercount := by
    apply OrderedMap.eq_of_keys_of_values
    · exact hkeys.trans ((beq_iff_eq.mp (of_assertThat hscopes)).trans hkeys'.symm)
    · exact beq_iff_eq.mp (of_assertThat hvalues)
  -- a scope open in one operand is open in the other, and the analyses are joined
  have hjoined (scope : ℕ) (o : Option (ℕ × ScopePath)) :
      Agrees W Q (m.scopes2info.find? scope) (m.scopes2entercount.find? scope) o ∨
        Agrees W Q (y.scopes2info.find? scope) (y.scopes2entercount.find? scope) o →
      Agrees W Q (info.find? scope) (m.scopes2entercount.find? scope) o := by
    have hc := hK c₀ hc₀ scope
    have hd := hL d₀ hd₀ scope
    rw [← hcounts] at hd ⊢
    generalize c₀ scope = c at hc
    generalize d₀ scope = d at hd
    generalize m.scopes2entercount.find? scope = count at hc hd ⊢
    rcases OrderedMap.sequence_merge hinfo scope with ⟨hx, hy, hnone⟩ | ⟨i, hjoin, hi⟩
    · rw [hx, hy, hnone, or_self]
      exact id
    · rw [hi]
      generalize m.scopes2info.find? scope = x at hc hjoin ⊢
      generalize y.scopes2info.find? scope = x' at hd hjoin ⊢
      cases hc with
      | closed => cases hjoin
      | opened hWx _ =>
        cases hd with
        | opened hWy _ =>
          obtain ⟨hW, hQ⟩ := hA.join _ _ _ hWx hWy hjoin
          rintro (h | h)
          · cases h with
            | opened _ hπ => exact .opened hW (hQ _ (.inl hπ))
          · cases h with
            | opened _ hπ => exact .opened hW (hQ _ (.inr hπ))
  refine ⟨⟨c₀, .inl hc₀⟩, ?_⟩
  rintro c (hc | hc) scope
  · exact hjoined scope _ (.inl (hK c hc scope))
  · exact hjoined scope _ (.inr (hL c hc scope))

/-- What every run keeps of every open scope. -/
theorem tracks_run (hA : A.Sound T P index W Q) (r : Collecting.Run Unit (ScopeOp T index)) :
    ∀ m, (analysis T P index A).eval r = .ok m →
      Tracks W Q m ((analysis T P index A).collect r) := by
  have hstep (op : ScopeOp T index) (m m' : MultiScopePersistence σ) (K : Set OpenScopes)
      (hm : Tracks W Q m K) (hm' : (analysis T P index A).step op m = .ok m') :
      Tracks W Q m' ((analysis T P index A).image op K) := by
    cases op with
    | enterScope scope =>
      cases hm'
      exact hm.enterScope hA scope
    | leaveScope scope => exact hm.leaveScope hm'
    | update addr hprecise hin load_store wantReport assumption =>
      obtain ⟨_, hm'⟩ := fst_map_eq_ok hm'
      exact hm.update hA hprecise hin hm'
    | potentialUpdate addr load_store wantReport =>
      obtain ⟨_, hm'⟩ := fst_map_eq_ok hm'
      exact hm.potentialUpdate hA hm'
  exact Collecting.Analysis.Run.sound_of_ok (Tracks W Q) (fun _ => tracks_new) hstep
    (fun m y u K L hm hy hu => hm.join hA hy hu) r

theorem mem_getPersistentScopes {scope tag : ℕ} : scope ∈ m.getPersistentScopes A tag ↔
    ∃ i, m.scopes2info.find? scope = some i ∧ A.isPersistent i tag = true := by
  simp [getPersistentScopes, OrderedMap.mem_entries_iff]

theorem mem_getPersistentScopesOfArray {scope : ℕ} {var : GlobalVariable} :
    scope ∈ m.getPersistentScopesOfArray A var ↔
      ∃ i, m.scopes2info.find? scope = some i ∧ A.isPersistentArray i var = true := by
  simp [getPersistentScopesOfArray, OrderedMap.mem_entries_iff]

theorem Tracks.opened (h : Tracks W Q m K) {c : OpenScopes} (hc : c ∈ K) {scope : ℕ} {i : σ}
    (hi : m.scopes2info.find? scope = some i) : ∃ p, c scope = some p ∧ W i ∧ Q i p.2 := by
  have hscope := h.2 c hc scope
  rw [hi] at hscope
  generalize m.scopes2entercount.find? scope = count at hscope
  generalize c scope = o at hscope
  cases hscope with
  | opened hW hQ => exact ⟨_, rfl, hW, hQ⟩

end MultiScopePersistence

/-! ## Interference -/

open MultiScopePersistence

namespace SetWiseCountingPersistence

/-- The options under which the conflicts with other cores are counted. -/
structure SharedOptions.Interfering (O : SharedOptions) (T : CacheTraits) : Prop where
  sPersistenceA : O.sPersistenceA = true
  coreNums : 0 < O.coreNums
  liangY : O.multicore.liangY = true
  level : 1 < T.level
  countable : O.multicore.Countable T

variable {O : SharedOptions} {s : SetWiseCountingPersistence} {tag : ℕ} {tags : List ℕ}

theorem isPersistent_iff (hO : O.Interfering T) : s.isPersistent T O tag = true ↔
    s.top = false ∧ s.size + O.multicore.conflicts T tag (getindex T s.r) ≤ T.associativity := by
  unfold isPersistent
  rw [if_pos ⟨hO.sPersistenceA, hO.coreNums, hO.level⟩]
  simp

/-- What a persistent state counts leaves room for the conflicts that are counted. -/
theorem Shaped.card_add_conflicts_le (hO : O.Interfering T) (h : Shaped T P mode index s)
    (hcounts : s.Counts T P index tags) (hpers : s.isPersistent T O tag = true) :
    tags.toFinset.card + O.multicore.conflicts T tag (getindex T s.r) ≤ T.associativity := by
  obtain ⟨htop, hle⟩ := (isPersistent_iff hO).mp hpers
  have hcard := (hcounts htop).card_le h
  omega

end SetWiseCountingPersistence

/-- A scope is reported as persistent for a tag, or for an array, only if the blocks of the
set that this core accessed and the conflicting ones of the other cores together are no more
than the ways: for the set-wise analysis if the conflicts of set 0 are no fewer than those of
this set, and for its arrays if what it counts leaves room for the conflicts; for the
element-wise one, which counts since the tag was last accessed, always. -/
theorem persistentScopes_sound (hT : T.Geometry) (hindex : index < T.nSets)
    {O : SetWiseCountingPersistence.SharedOptions} (hO : O.Interfering T) :
    (∀ r m, (analysis T P index (setWise T P mode O)).eval r = .ok m →
      ∀ c ∈ (analysis T P index (setWise T P mode O)).collect r, ∀ scope,
      (∀ tag, scope ∈ m.getPersistentScopes (setWise T P mode O) tag →
        ((O.multicore.foreignTags T index).erase tag).card ≤
          O.multicore.conflicts T tag (getindex T 0) →
        ∃ p, c scope = some p ∧ (tagsOnPath p.2).toFinset.card +
          ((O.multicore.foreignTags T index).erase tag).card ≤ T.associativity) ∧
      ∀ var, scope ∈ m.getPersistentScopesOfArray (setWise T P mode O) var →
        (∀ s, m.scopes2info.find? scope = some s → s.size +
          (O.multicore.foreignTags T index \ arrayBlocks T P index var).card ≤ T.associativity) →
        ∃ p, c scope = some p ∧ (tagsOnPath p.2).toFinset.card +
          (O.multicore.foreignTags T index \ arrayBlocks T P index var).card ≤ T.associativity) ∧
    ∀ r m, (analysis T P index (elementWise T P mode O)).eval r = .ok m →
      ∀ c ∈ (analysis T P index (elementWise T P mode O)).collect r, ∀ scope,
      (∀ tag, scope ∈ m.getPersistentScopes (elementWise T P mode O) tag →
        ∃ p, c scope = some p ∧ ((tag, true) ∈ p.2 →
          (tag :: tagsOnPath (since p.2 (tag, true))).toFinset.card +
            ((O.multicore.foreignTags T index).erase tag).card ≤ T.associativity)) ∧
      ∀ var, scope ∉ m.getPersistentScopesOfArray (elementWise T P mode O) var := by
  constructor
  · intro r m hm c hc scope
    have htracks := tracks_run (setWise_sound hT hindex O) r m hm
    refine ⟨fun tag hscope hconflicts => ?_, fun var hscope hroom => ?_⟩
    · obtain ⟨s, hs, hpers⟩ := mem_getPersistentScopes.mp hscope
      obtain ⟨p, hp, ⟨hshaped, hr⟩, hcounts⟩ := htracks.opened hc hs
      have hle := hshaped.card_add_conflicts_le hO hcounts hpers
      rw [hr] at hle
      exact ⟨p, hp, (Nat.add_le_add_left hconflicts _).trans hle⟩
    · obtain ⟨s, hs, hpers⟩ := mem_getPersistentScopesOfArray.mp hscope
      obtain ⟨p, hp, ⟨hshaped, _⟩, hcounts⟩ := htracks.opened hc hs
      have htop : s.top = false := by
        have hpers : (!s.top) = true := hpers
        simpa using hpers
      have hcard := (hcounts htop).card_le hshaped
      exact ⟨p, hp, (Nat.add_le_add_right hcard _).trans (hroom s hs)⟩
  · intro r m hm c hc scope
    have htracks := tracks_run (elementWise_sound hT hindex O) r m hm
    refine ⟨fun tag hscope => ?_, fun var hscope => ?_⟩
    · obtain ⟨e, he, hpers⟩ := mem_getPersistentScopes.mp hscope
      obtain ⟨p, hp, hreferenced, hcounts⟩ := htracks.opened hc he
      refine ⟨p, hp, fun htag => ?_⟩
      obtain ⟨s, hs, hcounted⟩ := hcounts tag htag
      have hpers : s.isPersistent T O tag = true := by
        have hpers : e.isPersistent T O tag = true := hpers
        rwa [ElementWiseCountingPersistence.isPersistent, hs] at hpers
      obtain ⟨hshaped, hr⟩ := hreferenced tag s hs
      have hle := hshaped.card_add_conflicts_le hO hcounted hpers
      rw [hr] at hle
      have hforeign := (hO.countable.conflicts hO.liangY hO.level tag index).1
      exact (Nat.add_le_add_left hforeign _).trans hle
    · obtain ⟨e, _, hpers⟩ := mem_getPersistentScopesOfArray.mp hscope
      cases hpers

/-- A shared cache of two ways, with one conflict in set 1. -/
def sharedTwoWays : CacheTraits := { fourSets 2 with level := 2 }

def twoCores : SetWiseCountingPersistence.SharedOptions := ⟨true, 2, oneConflict⟩

theorem interfering_twoCores : twoCores.Interfering sharedTwoWays :=
  ⟨rfl, by decide, rfl, by decide, (by decide : 2 + 1 < 2 ^ 32)⟩

theorem geometry_sharedTwoWays : sharedTwoWays.Geometry :=
  ⟨⟨4, by decide, rfl⟩, by decide, by decide, by decide⟩

/-- Scope 0 with accesses to blocks of set 1. -/
def scopeRun (addrs : List {a : ℕ // a < 2 ^ 32 ∧ getindex sharedTwoWays a = 1}) :
    Collecting.Run Unit (ScopeOp sharedTwoWays 1) :=
  addrs.foldl (fun r a => .step r (.update (.ofAddress a.1 a.2.1)
    (by simp [AbstractAddress.isPrecise, AbstractAddress.isArray, AbstractAddress.ofAddress,
      AddressInterval.point]) a.2.2 .load false .clUnknown))
    (.step (.start ()) (.enterScope 0))

open SetWiseCountingPersistence in
/-- Block 7 alone is persistent for the element-wise analysis. -/
theorem persistentScopes_sound_twoCores :
    let A := elementWise sharedTwoWays exampleAddresses .none twoCores
    let r := scopeRun [⟨464, by decide⟩]
    ∀ c ∈ (analysis sharedTwoWays exampleAddresses 1 A).collect r, ∃ p, c 0 = some p ∧
      ((7, true) ∈ p.2 → (7 :: tagsOnPath (since p.2 (7, true))).toFinset.card + 1 ≤ 2) := by
  intro A r c hc
  have hm : (match (analysis sharedTwoWays exampleAddresses 1 A).eval r with
      | .ok m => decide (0 ∈ m.getPersistentScopes A 7)
      | .error _ => false) = true := by decide +kernel
  cases heval : (analysis sharedTwoWays exampleAddresses 1 A).eval r with
  | error e =>
    rw [heval] at hm
    cases hm
  | ok m =>
    rw [heval] at hm
    exact ((persistentScopes_sound geometry_sharedTwoWays (by decide) interfering_twoCores).2
      r m heval c hc 0).1 7 (of_decide_eq_true hm)

open SetWiseCountingPersistence in
/-- With two blocks accessed and one conflict in two ways, the scope is reported as persistent
for a block, as set 0 has no conflict, and for an array, for which none is counted. -/
theorem interference_missed :
    let A := setWise sharedTwoWays exampleAddresses .none twoCores
    let r := scopeRun [⟨464, by decide⟩, ⟨528, by decide⟩]
    ∃ m, (analysis sharedTwoWays exampleAddresses 1 A).eval r = .ok m ∧
      0 ∈ m.getPersistentScopes A 7 ∧ 0 ∈ m.getPersistentScopesOfArray A 0 ∧
      ∃ c ∈ (analysis sharedTwoWays exampleAddresses 1 A).collect r, ∃ p, c 0 = some p ∧
        sharedTwoWays.associativity < (tagsOnPath p.2).toFinset.card +
          ((twoCores.multicore.foreignTags sharedTwoWays 1).erase 7).card ∧
        sharedTwoWays.associativity < (tagsOnPath p.2).toFinset.card +
          (twoCores.multicore.foreignTags sharedTwoWays 1 \
            arrayBlocks sharedTwoWays exampleAddresses 1 0).card := by
  intro A r
  have hm : (match (analysis sharedTwoWays exampleAddresses 1 A).eval r with
      | .ok m => decide (0 ∈ m.getPersistentScopes A 7 ∧ 0 ∈ m.getPersistentScopesOfArray A 0)
      | .error _ => false) = true := by decide +kernel
  cases heval : (analysis sharedTwoWays exampleAddresses 1 A).eval r with
  | error e =>
    rw [heval] at hm
    cases hm
  | ok m =>
    rw [heval] at hm
    obtain ⟨htag, harray⟩ := of_decide_eq_true hm
    refine ⟨m, rfl, htag, harray, _, ⟨_, ⟨_, ⟨_, rfl, rfl⟩, rfl⟩, rfl⟩, _, rfl, ?_, ?_⟩
    · decide
    · decide +kernel

end Llvmta
