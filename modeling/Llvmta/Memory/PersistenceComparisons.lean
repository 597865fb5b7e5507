import Llvmta.Library.Interning
import Llvmta.Memory.PersistenceCoherence

/-!
# Comparisons of the states of runs

Without array analysis the comparisons of all states that runs reach are coherent: a state is
equal to itself, is not changed by a join with itself, and `operator<` orders the states. With
it the steps have to keep the counts of arrays within their bounds, and the conflict sets of
different cache sets have to stand a join.
-/

namespace Llvmta

open Checked Interning

variable {T : CacheTraits} {P : StaticAddressProvider} {mode : ArrayPersistenceAnaType}
  {index : ℕ} {O : SetWiseCountingPersistence.SharedOptions}

namespace ElementWiseCountingPersistence

theorem Normal.compatible_of_none {x y : ElementWiseCountingPersistence}
    (hx : x.Normal T P .none) (hy : y.Normal T P .none) : x.Compatible T P y := by
  intro t s s' hs hs' array harray
  rw [(hx t s hs).arrays_nil rfl, (hy t s' hs').arrays_nil rfl] at harray
  simp at harray

theorem keepsUpdate_of_none {e : ElementWiseCountingPersistence} (h : e.Normal T P .none)
    (addr : AbstractAddress) : e.KeepsUpdate T P .none index addr := by
  intro t s hs _ _ _ _ array harray
  rw [(h t s hs).arrays_nil rfl] at harray
  simp at harray

theorem keepsPotentialUpdate_of_none (e : ElementWiseCountingPersistence)
    (addr : AbstractAddress) : e.KeepsPotentialUpdate T P .none index addr := by
  intro t s hs hmode
  cases hmode

theorem Referenced.compatible (hT : T.Geometry) (hindex : index < T.nSets)
    {x y : ElementWiseCountingPersistence} (hx : x.Referenced T P mode index)
    (hy : y.Referenced T P mode index) : x.Compatible T P y := fun t s s' hs hs' =>
  SetWiseCountingPersistence.compatible_of_shaped hT hindex (hx t s hs).1 (hy t s' hs').1

end ElementWiseCountingPersistence

namespace MultiScopePersistence

variable {x y m m' u : MultiScopePersistence ElementWiseCountingPersistence}

/-- The step keeps up the conflict sets of every scope. -/
def Keeps (T : CacheTraits) (P : StaticAddressProvider) (mode : ArrayPersistenceAnaType)
    (op : ScopeOp T index) (m : MultiScopePersistence ElementWiseCountingPersistence) : Prop :=
  match op with
  | .enterScope _ | .leaveScope _ => True
  | .update addr _ _ _ _ _ => ∀ scope e, m.scopes2info.find? scope = some e →
      e.KeepsUpdate T P mode index addr
  | .potentialUpdate addr _ _ => ∀ scope e, m.scopes2info.find? scope = some e →
      e.KeepsPotentialUpdate T P mode index addr

/-- The analyses of all scopes stand a join with themselves. -/
def NormalInfo (T : CacheTraits) (P : StaticAddressProvider) (mode : ArrayPersistenceAnaType)
    (m : MultiScopePersistence ElementWiseCountingPersistence) : Prop :=
  ∀ scope e, m.scopes2info.find? scope = some e → e.Normal T P mode

theorem NormalInfo.enterScope (h : NormalInfo T P mode m) (scope : ℕ) :
    NormalInfo T P mode (m.enterScope (elementWise T P mode O) scope) := by
  intro scope' e he
  unfold MultiScopePersistence.enterScope at he
  cases hinfo : m.scopes2info.find? scope with
  | none =>
    simp only [hinfo, OrderedMap.find?_insert] at he
    split_ifs at he
    · cases he
      exact ElementWiseCountingPersistence.normal_new
    · exact h scope' e he
  | some e₀ =>
    simp only [hinfo] at he
    exact h scope' e he

theorem NormalInfo.leaveScope (h : NormalInfo T P mode m) {scope : ℕ}
    (hm : m.leaveScope scope = .ok m') : NormalInfo T P mode m' := by
  intro scope' e he
  obtain ⟨_, _, hm⟩ := bind_eq_ok.mp hm
  cases hcount : m.scopes2entercount.find? scope with
  | none =>
    simp only [hcount] at hm
    cases hm
  | some count =>
    simp only [hcount] at hm
    split_ifs at hm
    · cases hm
      exact h scope' e he
    · cases hm
      rw [OrderedMap.find?_erase] at he
      split_ifs at he
      exact h scope' e he

/-- The analyses of all scopes make a step that keeps them up. -/
theorem NormalInfo.step {f : ElementWiseCountingPersistence →
      Except Fault ElementWiseCountingPersistence}
    {info info' : OrderedMap ℕ ElementWiseCountingPersistence}
    (hinfo : (info.mapValues fun _ e => f e).sequence = .ok info')
    (hf : ∀ scope e e', info.find? scope = some e → f e = .ok e' → e'.Normal T P mode)
    (scope : ℕ) (e : ElementWiseCountingPersistence) (he : info'.find? scope = some e) :
    e.Normal T P mode := by
  rcases OrderedMap.sequence_mapValues hinfo scope with ⟨_, hnone⟩ | ⟨i, i', hi, hstep, hi'⟩
  · rw [hnone] at he
    cases he
  · obtain rfl : i' = e := Option.some.inj (hi'.symm.trans he)
    exact hf scope i i' hi hstep

theorem NormalInfo.scopeStep (hT : T.Geometry) (h : NormalInfo T P mode m)
    {op : ScopeOp T index} (hkeep : Keeps T P mode op m)
    (hm : (analysis T P index (elementWise T P mode O)).step op m = .ok m') :
    NormalInfo T P mode m' := by
  cases op with
  | enterScope scope =>
    cases hm
    exact h.enterScope scope
  | leaveScope scope => exact h.leaveScope hm
  | update addr hprecise hin load_store wantReport assumption =>
    obtain ⟨_, hm⟩ := fst_map_eq_ok hm
    obtain ⟨info, hinfo, hm⟩ := bind_eq_ok.mp hm
    cases hm
    apply NormalInfo.step hinfo
    intro scope e e' he hstep
    obtain ⟨report, hstep⟩ := fst_map_eq_ok hstep
    have hupdate : e.update T P mode addr load_store false assumption = .ok (e', report) := hstep
    exact (h scope e he).update hT hprecise hin (hkeep scope e he) hupdate
  | potentialUpdate addr load_store wantReport =>
    obtain ⟨_, hm⟩ := fst_map_eq_ok hm
    obtain ⟨info, hinfo, hm⟩ := bind_eq_ok.mp hm
    cases hm
    apply NormalInfo.step hinfo
    intro scope e e' he hstep
    obtain ⟨_, hstep⟩ := fst_map_eq_ok hstep
    exact (h scope e he).potentialUpdate (hkeep scope e he) hstep

theorem NormalInfo.join (hx : NormalInfo T P mode x) (hy : NormalInfo T P mode y)
    (hu : x.join (elementWise T P mode O) y = .ok u) : NormalInfo T P mode u := by
  obtain ⟨_, _, hu⟩ := bind_eq_ok.mp hu
  obtain ⟨_, _, hu⟩ := bind_eq_ok.mp hu
  obtain ⟨_, _, hu⟩ := bind_eq_ok.mp hu
  obtain ⟨info, hinfo, hu⟩ := bind_eq_ok.mp hu
  cases hu
  intro scope e he
  rcases OrderedMap.sequence_merge hinfo scope with ⟨_, _, hnone⟩ | ⟨i, hjoin, hi⟩
  · rw [hnone] at he
    cases he
  · obtain rfl : i = e := Option.some.inj (hi.symm.trans he)
    cases hsx : x.scopes2info.find? scope with
    | none =>
      rw [hsx] at hjoin
      cases hjoin
    | some ex =>
      cases hsy : y.scopes2info.find? scope with
      | none =>
        rw [hsx, hsy] at hjoin
        cases hjoin
      | some ey =>
        rw [hsx, hsy] at hjoin
        exact (hx scope ex hsx).join (hy scope ey hsy) hjoin

/-- The states of the set `index` that runs reach. With array analysis every step of the run
keeps up the conflict sets. -/
def Reached (T : CacheTraits) (P : StaticAddressProvider) (mode : ArrayPersistenceAnaType)
    (O : SetWiseCountingPersistence.SharedOptions) (index : ℕ)
    (m : MultiScopePersistence ElementWiseCountingPersistence) : Prop :=
  ∃ r : Collecting.Run Unit (ScopeOp T index),
    (mode = .setwise → (analysis T P index (elementWise T P mode O)).Every
      (fun op m _ => Keeps T P mode op m) r) ∧
    (analysis T P index (elementWise T P mode O)).eval r = .ok m

theorem Reached.normalInfo (hT : T.Geometry) (h : Reached T P mode O index m) :
    NormalInfo T P mode m := by
  obtain ⟨r, hkeeps, heval⟩ := h
  have hstart : NormalInfo T P mode new := fun scope e he => by cases he
  cases mode with
  | none =>
    refine Collecting.Analysis.Run.sound_of_ok (fun m _ => NormalInfo T P .none m)
      (fun _ => hstart) ?_ (fun m y u _ _ hm hy hu => hm.join hy hu) r m heval
    intro op m m' _ hm hm'
    refine hm.scopeStep hT ?_ hm'
    cases op with
    | enterScope scope => trivial
    | leaveScope scope => trivial
    | update addr _ _ _ _ _ =>
      exact fun scope e he =>
        ElementWiseCountingPersistence.keepsUpdate_of_none (hm scope e he) addr
    | potentialUpdate addr _ _ =>
      exact fun scope e _ => ElementWiseCountingPersistence.keepsPotentialUpdate_of_none e addr
  | setwise =>
    exact Collecting.Analysis.Run.sound_of_every_ok (fun m _ => NormalInfo T P .setwise m)
      (fun _ => hstart) (fun op m m' _ hm hkeep hm' => hm.scopeStep hT hkeep hm')
      (fun m y u _ _ hm hy hu => hm.join hy hu) r (hkeeps rfl) m heval

theorem Reached.normal (hT : T.Geometry) (hindex : index < T.nSets)
    (h : Reached T P mode O index m) : Normal T P mode m := by
  refine ⟨h.normalInfo hT, ?_⟩
  obtain ⟨r, _, heval⟩ := h
  exact (tracks_run (elementWise_sound hT hindex O) r m heval).keys_eq

/-- States of the same cache set are compatible. -/
theorem Reached.compatible (hT : T.Geometry) (hindex : index < T.nSets)
    (hx : Reached T P mode O index x) (hy : Reached T P mode O index y) :
    Compatible T P x y := by
  have hreferenced {m : MultiScopePersistence ElementWiseCountingPersistence}
      (hm : Reached T P mode O index m) {scope : ℕ} {e : ElementWiseCountingPersistence}
      (he : m.scopes2info.find? scope = some e) : e.Referenced T P mode index := by
    obtain ⟨r, _, heval⟩ := hm
    have htracks := tracks_run (elementWise_sound hT hindex O) r m heval
    obtain ⟨c, hc⟩ := htracks.1
    obtain ⟨_, _, hW, _⟩ := htracks.opened hc he
    exact hW
  intro scope e e' he he'
  exact (hreferenced hx he).compatible hT hindex (hreferenced hy he')

variable {S : Set (MultiScopePersistence ElementWiseCountingPersistence)}

/-- The comparisons of states that runs over any cache sets reach are coherent. -/
theorem comparisons_coherent (hT : T.Geometry)
    (hS : ∀ m ∈ S, ∃ index < T.nSets, Reached T P mode O index m)
    (hcompat : mode = .setwise → ∀ x ∈ S, ∀ y ∈ S,
      (∃ index < T.nSets, Reached T P mode O index x ∧ Reached T P mode O index y) ∨
        Compatible T P x y) :
    (∀ m ∈ S, m.lessequal (elementWiseOrder T P mode) m = .ok true ∧
      m.equals (elementWiseOrder T P mode) m = .ok true ∧
      m.join (elementWise T P mode O) m = .ok m) ∧
    Discerns (less (elementWiseOrder T P mode)) Eq S := by
  have hnormal : ∀ m ∈ S, Normal T P mode m := by
    intro m hm
    obtain ⟨index, hindex, hreached⟩ := hS m hm
    exact hreached.normal hT hindex
  have hall : ∀ x ∈ S, ∀ y ∈ S, Compatible T P x y := by
    intro x hx y hy
    cases mode with
    | none =>
      intro scope e e' he he'
      exact ((hnormal x hx).info scope e he).compatible_of_none ((hnormal y hy).info scope e' he')
    | setwise =>
      rcases hcompat rfl x hx y hy with ⟨index, hindex, hrx, hry⟩ | hxy
      · exact hrx.compatible hT hindex hry
      · exact hxy
  constructor
  · intro m hm
    have h := hnormal m hm
    exact ⟨h.lessequal_self, h.equals_self, h.join_self⟩
  · exact discerns_of_key key (fun x hx y hy => (hnormal x hx).less_eq (hnormal y hy) (hall x hx y hy))
      fun x hx y hy => (hnormal x hx).key_eq_iff (hnormal y hy)

open SetWiseCountingPersistence in
/-- A scope with a precise access and an access into an array. -/
theorem comparisons_coherent_array :
    let T := fourSets 4
    let O : SharedOptions := ⟨false, 0, ⟨false, 0, [], fun _ => []⟩⟩
    let A := elementWise T exampleAddresses .setwise O
    let r : Collecting.Run Unit (ScopeOp T 0) :=
      .step (.step (.step (.start ()) (.enterScope 1))
        (.update (.ofAddress 4 (by decide)) rfl (by decide) .load false .clUnknown))
        (.potentialUpdate ⟨⟨0, 124, by decide, by decide⟩, some 0⟩ .load false)
    ∃ m, (analysis T exampleAddresses 0 A).eval r = .ok m ∧
      m.equals (elementWiseOrder T exampleAddresses .setwise) m = .ok true ∧ m.join A m = .ok m ∧
      less (elementWiseOrder T exampleAddresses .setwise) m m = .ok false := by
  intro T O A r
  have hfirst : (analysis T exampleAddresses 0 A).eval (.step (.start ()) (.enterScope 1)) =
      .ok ⟨.insert .empty 1 .new, .insert .empty 1 1⟩ := rfl
  have hsecond : (analysis T exampleAddresses 0 A).eval (.step (.step (.start ()) (.enterScope 1))
      (.update (.ofAddress 4 (by decide)) rfl (by decide) .load false .clUnknown)) =
        .ok ⟨.insert .empty 1 ⟨.insert .empty 0 ⟨4, false, {⟨0, [0]⟩}, []⟩⟩,
          .insert .empty 1 1⟩ := by decide +kernel
  obtain ⟨m, hthird⟩ : ∃ m, (analysis T exampleAddresses 0 A).eval r = .ok m :=
    ⟨⟨.insert .empty 1 ⟨.insert .empty 0 ⟨4, false, {⟨0, [0]⟩}, [0]⟩⟩, .insert .empty 1 1⟩,
      by decide +kernel⟩
  have hreached : Reached T exampleAddresses .setwise O 0 m := by
    refine ⟨r, fun _ => ⟨⟨⟨trivial, fun _ _ => trivial⟩, ?_⟩, ?_⟩, hthird⟩
    · intro m hm scope e he t s hs
      rw [hfirst] at hm
      cases hm
      rw [OrderedMap.find?_insert] at he
      split_ifs at he
      · cases he
        cases hs
      · cases he
    · intro m hm scope e he t s hs _ _ hfull
      rw [hsecond] at hm
      cases hm
      rw [OrderedMap.find?_insert] at he
      split_ifs at he
      · cases he
        rw [OrderedMap.find?_insert] at hs
        split_ifs at hs
        · cases hs
          exact absurd hfull (by decide)
        · cases hs
      · cases he
  have hS : ∀ x ∈ ({m} : Set _), ∃ index < T.nSets,
      Reached T exampleAddresses .setwise O index x := by
    rintro x rfl
    exact ⟨0, by decide, hreached⟩
  obtain ⟨hself, hdiscerns⟩ := comparisons_coherent (geometry_fourSets 4) hS <| by
    rintro _ x rfl y rfl
    exact .inl ⟨0, by decide, hreached, hreached⟩
  obtain ⟨_, hequals, hjoin⟩ := hself m rfl
  exact ⟨m, hthird, hequals, hjoin, hdiscerns.irrefl rfl rfl⟩

end MultiScopePersistence

end Llvmta
