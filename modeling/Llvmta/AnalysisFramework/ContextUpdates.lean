import Llvmta.AnalysisFramework.ContextMaps

/-!
# Context updates of trees

A directive updates a tree by moving the information of each leaf to the context that
`Context::update` gives for it. The information of contexts that meet is joined.
-/

namespace Llvmta

open Checked LabeledTree KeyedLabel AnalysisDom

variable {A : Type}

/-- The information that is sent to a context. -/
def sentTo (moved : List (Context × A)) (ks : ContextKey) : List A :=
  AddedEntries.valuesOf (moved.map fun e => (e.1.keys, e.2)) ks

theorem sentTo_of_mem {l : List (Context × A)} (hl : (l.map fun e => e.1.keys).Nodup)
    {e : Context × A} (he : e ∈ l) : sentTo l e.1.keys = [e.2] := by
  apply AddedEntries.valuesOf_eq
  · rw [List.map_map]
    exact hl
  · exact List.mem_map_of_mem (f := fun e => (e.1.keys, e.2)) he

theorem sentTo_of_notMem {l : List (Context × A)} {ks : ContextKey}
    (h : ∀ e ∈ l, e.1.keys ≠ ks) : sentTo l ks = [] := by
  apply AddedEntries.valuesOf_eq_nil
  rw [List.map_map]
  intro hmem
  obtain ⟨e, he, hks⟩ := List.mem_map.mp hmem
  exact h e he hks

/-- What a directive or an edge makes of each recorded context. -/
def moveAll (move : Context → Except Fault Context) (l : List (Context × A)) :
    Except Fault (List (Context × A)) :=
  l.mapM fun e => (move e.1).map fun ctx => (ctx, e.2)

theorem moveAll_eq (move : Context → Except Fault Context) (next : Context → Context)
    {l : List (Context × A)} (h : ∀ e ∈ l, move e.1 = .ok (next e.1)) :
    moveAll move l = .ok (l.map fun e => (next e.1, e.2)) := by
  induction l with
  | nil => rfl
  | cons e l ih =>
    rw [moveAll, List.mapM_cons, h e List.mem_cons_self]
    have hrest := ih fun e' he' => h e' (List.mem_cons_of_mem e he')
    rw [moveAll] at hrest
    rw [hrest]
    rfl

namespace PartitioningDomain

theorem nodup_keys_listed {tree : ContextTree A} (h : ContextTree.WellFormed tree) :
    ((listed tree).map fun e => e.1.keys).Nodup := by
  have hnodup := h.lists.nodup
  rw [← keys_listed, List.map_map] at hnodup
  exact hnodup

theorem info_of_listed {tree : ContextTree A} (h : ContextTree.WellFormed tree)
    {e : Context × A} (he : e ∈ listed tree) : info ⟨some tree⟩ e.1.keys = some e.2 := by
  apply (h.lists.mem_iff _ _).mp
  rw [← keys_listed]
  exact List.mem_map_of_mem (f := fun e => (e.1.keys, e.2)) he

theorem wellFormed_none : WellFormed (⟨none⟩ : PartitioningDomain A) := by
  intro tree h
  cases h

variable [AnalysisDom A] {pd pd' : PartitioningDomain A}

theorem addContexts_cons (pd : PartitioningDomain A) (e : Context × A) (l : List (Context × A)) :
    pd.addContexts (e :: l) =
      ((pd.addContext e.1 e.2).map Prod.fst >>= fun pd => pd.addContexts l) :=
  List.foldlM_cons

theorem addContexts_append (pd : PartitioningDomain A) (l l' : List (Context × A)) :
    pd.addContexts (l ++ l') = (pd.addContexts l >>= fun pd => pd.addContexts l') :=
  List.foldlM_append

/-- The element holds, for each context, the join of what is sent to it. Where nothing is
sent, nothing but bottom is recorded. -/
def Holds (pd : PartitioningDomain A) (moved : List (Context × A)) : Prop :=
  ∀ ks, (sentTo moved ks = [] ∧ ∀ a, pd.info ks = some a → a = AnalysisDom.ofInit .bottom) ∨
    (sentTo moved ks ≠ [] ∧ ∃ values, values.Perm (sentTo moved ks) ∧
      pd.info ks = AddedEntries.joinAll AnalysisDom.join none values)

/-- An empty tree to which contexts are added. -/
theorem addContexts_empty {l : List (Context × A)} (hl : ∀ e ∈ l, e.1.NoneFree) :
    ∃ pd', addContexts ⟨none⟩ l = .ok pd' ∧ pd'.WellFormed ∧ ∀ ks, pd'.info ks =
      AddedEntries.joinAll AnalysisDom.join none (sentTo l ks) := by
  obtain ⟨pd', hall, hwell, hinfo⟩ := addContexts_spec wellFormed_none hl
  refine ⟨pd', hall, hwell, ?_⟩
  intro ks
  rw [hinfo, AddedEntries.addAll_apply]
  rfl

section Merge

/-- The result of a merge where the context is not empty. -/
def mergedContext (labelsToMerge : List PartitionToken) (ctx : Context) : Context :=
  if ∃ label ∈ ctx.getTokenList.getLast?, label ∈ labelsToMerge then
    ⟨ctx.getTokenList.dropLast⟩ else ctx

theorem merge_eq {ctx : Context} (h : ctx.getTokenList ≠ []) (labelsToMerge : List PartitionToken) :
    ctx.merge labelsToMerge = .ok (mergedContext labelsToMerge ctx) := by
  rw [Context.merge, mergedContext, List.getLast?_eq_some_getLast h]
  simp

theorem noneFree_mergedContext {ctx : Context} (h : ctx.NoneFree)
    (labelsToMerge : List PartitionToken) : (mergedContext labelsToMerge ctx).NoneFree := by
  rw [mergedContext]
  split_ifs
  · exact fun token htoken => h token (List.mem_of_mem_dropLast htoken)
  · exact h

theorem foldlM_handleMerge {labels : List PartitionToken} (path : List (List PartitionToken × A))
    (h : ∀ leaf ∈ path, (Context.ofPath leaf.1).getTokenList ≠ []) (pd : PartitioningDomain A) :
    path.foldlM (handleDirec ⟨.merge, labels⟩) pd = pd.addContexts
      (path.map fun leaf => (mergedContext labels (Context.ofPath leaf.1), leaf.2)) := by
  induction path generalizing pd with
  | nil => rfl
  | cons leaf path ih =>
    have hmerge : (Context.ofPath leaf.1).update ⟨.merge, labels⟩ =
        .ok (mergedContext labels (Context.ofPath leaf.1)) :=
      merge_eq (h leaf List.mem_cons_self) labels
    have hrest := ih fun l hl => h l (List.mem_cons_of_mem leaf hl)
    rw [List.foldlM_cons, List.map_cons, addContexts_cons, handleDirec]
    simp only [hmerge, ok_bind, hrest]

end Merge

section Create

/-- The tokens that directives may create. -/
def Supported (token : PartitionToken) : Prop := token.isIfOrNone = false

/-- The first iteration of a loop, or a call. -/
def Starts (token : PartitionToken) : Prop := token.isIteration 0 = true ∨ token.isLoop = false

instance (token : PartitionToken) : Decidable (Starts token) :=
  inferInstanceAs (Decidable (_ ∨ _))

def createdValue (ana : A) (token : PartitionToken) : A :=
  if Starts token then ana else AnalysisDom.ofInit .bottom

theorem createdInfo_eq {token : PartitionToken} (h : Supported token) (ana : A) :
    createdInfo ana token = .ok (createdValue ana token) := by
  cases token with
  | none => cases h
  | ifOutcome _ _ => cases h
  | loopPeel loop backedges taken =>
    simp [createdInfo, createdValue, Starts, PartitionToken.isIteration, PartitionToken.isLoop]
  | loopIter loop backedges taken =>
    simp [createdInfo, createdValue, Starts, PartitionToken.isIteration, PartitionToken.isLoop]
  | callSite _ => simp [createdInfo, createdValue, Starts, PartitionToken.isLoop]
  | funCallee _ => simp [createdInfo, createdValue, Starts, PartitionToken.isLoop]

theorem Supported.ne_none {token : PartitionToken} (h : Supported token) : token ≠ .none := by
  rintro rfl
  cases h

/-- The contexts that a directive creates from one with its information. -/
def createdContexts (tokens : List PartitionToken) (e : Context × A) : List (Context × A) :=
  tokens.map fun token => (⟨e.1.getTokenList ++ [token]⟩, createdValue e.2 token)

theorem ofPath_append {token : PartitionToken} (h : token ≠ .none) (path : List PartitionToken) :
    Context.ofPath (path ++ [token]) = ⟨(Context.ofPath path).getTokenList ++ [token]⟩ := by
  have hlist : (Context.ofPath (path ++ [token])).getTokenList =
      (Context.ofPath path).getTokenList ++ [token] := by
    rw [ContextTree.getTokenList_ofPath, ContextTree.getTokenList_ofPath, List.filter_append]
    simp [h]
  exact congrArg Context.mk hlist

theorem foldlM_handleCreate {tokens : List PartitionToken} (h : ∀ token ∈ tokens, Supported token)
    (leaf : List PartitionToken × A) (pd : PartitioningDomain A) :
    tokens.foldlM (handleCreate leaf) pd =
      pd.addContexts (createdContexts tokens (Context.ofPath leaf.1, leaf.2)) := by
  induction tokens generalizing pd with
  | nil => rfl
  | cons token tokens ih =>
    have htoken := h token List.mem_cons_self
    have hrest := ih fun t ht => h t (List.mem_cons_of_mem token ht)
    have hcons : createdContexts (token :: tokens) (Context.ofPath leaf.1, leaf.2) =
        (⟨(Context.ofPath leaf.1).getTokenList ++ [token]⟩, createdValue leaf.2 token) ::
          createdContexts tokens (Context.ofPath leaf.1, leaf.2) := rfl
    rw [List.foldlM_cons, hcons, addContexts_cons, handleCreate, createdInfo_eq htoken, ok_bind,
      ofPath_append htoken.ne_none]
    simp only [hrest]

theorem foldlM_handleDirec_create {tokens : List PartitionToken}
    (h : ∀ token ∈ tokens, Supported token) (path : List (List PartitionToken × A))
    (pd : PartitioningDomain A) : path.foldlM (handleDirec ⟨.create, tokens⟩) pd =
      pd.addContexts ((path.map fun leaf => (Context.ofPath leaf.1, leaf.2)).flatMap
        (createdContexts tokens)) := by
  induction path generalizing pd with
  | nil => rfl
  | cons leaf path ih =>
    have hcreate : handleDirec ⟨.create, tokens⟩ pd leaf =
        pd.addContexts (createdContexts tokens (Context.ofPath leaf.1, leaf.2)) :=
      foldlM_handleCreate h leaf pd
    rw [List.foldlM_cons, hcreate, List.map_cons, List.flatMap_cons, addContexts_append]
    simp only [ih]

theorem noneFree_createdContexts {tokens : List PartitionToken}
    (h : ∀ token ∈ tokens, Supported token) {e : Context × A} (he : e.1.NoneFree)
    {e' : Context × A} (he' : e' ∈ createdContexts tokens e) : e'.1.NoneFree := by
  obtain ⟨token, htoken, rfl⟩ := List.mem_map.mp he'
  intro t ht
  rcases List.mem_append.mp ht with ht | ht
  · exact he t ht
  · rw [List.mem_singleton.mp ht]
    exact (h token htoken).ne_none

end Create

section Agreement

variable {tree : ContextTree A} {tokens : List PartitionToken}

theorem keys_createdContexts (tokens : List PartitionToken) (e : Context × A) :
    (createdContexts tokens e).map (fun e => e.1.keys) =
      tokens.map fun token => e.1.keys ++ [key token] := by
  rw [createdContexts, List.map_map]
  apply List.map_congr_left
  intro token _
  simp [Context.keys]

/-- Contexts and tokens that are told apart give contexts that are told apart. -/
theorem nodup_created {l : List (Context × A)} (hl : (l.map fun e => e.1.keys).Nodup)
    (htokens : (tokens.map key).Nodup) :
    ((l.flatMap (createdContexts tokens)).map fun e => e.1.keys).Nodup := by
  rw [List.map_flatMap, List.nodup_flatMap]
  constructor
  · intro e _
    rw [keys_createdContexts]
    have hkeys : (tokens.map fun token => e.1.keys ++ [key token]) =
        (tokens.map key).map fun k => e.1.keys ++ [k] := by
      rw [List.map_map]
      rfl
    rw [hkeys]
    exact htokens.map fun k k' heq => List.singleton_injective (List.append_cancel_left heq)
  · apply (List.pairwise_map.mp hl).imp
    intro e e' hne ks hks hks'
    simp only [keys_createdContexts] at hks hks'
    obtain ⟨token, -, rfl⟩ := List.mem_map.mp hks
    obtain ⟨token', -, heq⟩ := List.mem_map.mp hks'
    exact hne (List.append_inj' heq rfl).1.symm

/-- The first iteration or the call is what `Context::update` puts on top. -/
theorem createdToken_eq (h : ∀ token ∈ tokens, Supported token) {first : PartitionToken}
    (hfirst : (tokens.filter fun token => Starts token) = [first]) :
    Context.createdToken tokens = .ok (some first) := by
  induction tokens with
  | nil => cases hfirst
  | cons token tokens ih =>
    have htoken := h token List.mem_cons_self
    have hskip (hstarts : ¬Starts token) : Context.createdToken tokens = .ok (some first) := by
      apply ih fun t ht => h t (List.mem_cons_of_mem token ht)
      simpa [hstarts] using hfirst
    have htake (hstarts : Starts token) : token = first := by
      simp only [hstarts, decide_true, List.filter_cons_of_pos] at hfirst
      exact (List.cons.inj hfirst).1
    cases token with
    | none => cases htoken
    | ifOutcome _ _ => cases htoken
    | loopPeel loop backedges taken =>
      by_cases htaken : taken = 0
      · have hstarts : Starts (.loopPeel loop backedges taken) := by
          simp [Starts, PartitionToken.isIteration, htaken]
        rw [← htake hstarts]
        simp [Context.createdToken, htaken]
      · rw [Context.createdToken, if_neg htaken]
        apply hskip
        simp [Starts, PartitionToken.isIteration, PartitionToken.isLoop, htaken]
    | loopIter loop backedges taken =>
      by_cases htaken : taken = 0
      · have hstarts : Starts (.loopIter loop backedges taken) := by
          simp [Starts, PartitionToken.isIteration, htaken]
        rw [← htake hstarts]
        simp [Context.createdToken, htaken]
      · rw [Context.createdToken, if_neg htaken]
        apply hskip
        simp [Starts, PartitionToken.isIteration, PartitionToken.isLoop, htaken]
    | callSite callInstr =>
      rw [← htake (.inr rfl)]
      rfl
    | funCallee function =>
      rw [← htake (.inr rfl)]
      rfl

/-- A directive that the heuristics create: the tokens of one loop or of one call, or a merge
where each context has a token. -/
def Applies (direc : Directive) (pd : PartitioningDomain A) : Prop :=
  match direc.getType with
  | .create => (∀ token ∈ direc.getPartitionTokens, Supported token) ∧
      (direc.getPartitionTokens.map key).Nodup ∧
      ∃ first, (direc.getPartitionTokens.filter fun token => Starts token) = [first]
  | .merge => pd.info [] = none

theorem updateContexts_merge {labels : List PartitionToken} (h : ContextTree.WellFormed tree)
    (hnil : info ⟨some tree⟩ [] = none) :
    ∃ moved pd', moveAll (fun ctx => ctx.update ⟨.merge, labels⟩) (listed tree) = .ok moved ∧
      updateContexts ⟨some tree⟩ ⟨.merge, labels⟩ = .ok pd' ∧ pd'.WellFormed ∧
      ∀ ks, pd'.info ks = AddedEntries.joinAll AnalysisDom.join none (sentTo moved ks) := by
  have hne {e : Context × A} (he : e ∈ listed tree) : e.1.getTokenList ≠ [] := by
    intro htokens
    have hinfo := info_of_listed h he
    rw [Context.keys, htokens, List.map_nil, hnil] at hinfo
    cases hinfo
  have hmoved : moveAll (fun ctx => ctx.update ⟨.merge, labels⟩) (listed tree) =
      .ok ((listed tree).map fun e => (mergedContext labels e.1, e.2)) :=
    moveAll_eq _ _ fun e he => merge_eq (hne he) labels
  have hfree : ∀ e ∈ (listed tree).map fun e => (mergedContext labels e.1, e.2),
      e.1.NoneFree := by
    intro e he
    obtain ⟨e₀, he₀, rfl⟩ := List.mem_map.mp he
    exact noneFree_mergedContext (noneFree_listed he₀) labels
  obtain ⟨pd', hall, hwell, hinfo⟩ := addContexts_empty hfree
  refine ⟨_, pd', hmoved, ?_, hwell, hinfo⟩
  rw [updateContexts]
  simp only
  rw [foldlM_handleMerge]
  · rw [listed, List.map_map] at hall
    exact hall
  · exact fun leaf hleaf => hne (List.mem_map_of_mem hleaf)

theorem updateContexts_create (h : ContextTree.WellFormed tree)
    (hsupported : ∀ token ∈ tokens, Supported token) (hkeys : (tokens.map key).Nodup) :
    ∃ pd', updateContexts ⟨some tree⟩ ⟨.create, tokens⟩ = .ok pd' ∧ pd'.WellFormed ∧
      (∀ e ∈ listed tree, ∀ token ∈ tokens,
        pd'.info (e.1.keys ++ [key token]) = some (createdValue e.2 token)) ∧
      ∀ ks a, pd'.info ks = some a →
        ∃ e ∈ listed tree, ∃ token ∈ tokens, ks = e.1.keys ++ [key token] := by
  have hfree : ∀ e ∈ (listed tree).flatMap (createdContexts tokens), e.1.NoneFree := by
    intro e he
    obtain ⟨e₀, he₀, he⟩ := List.mem_flatMap.mp he
    exact noneFree_createdContexts hsupported (noneFree_listed he₀) he
  obtain ⟨pd', hall, hwell, hinfo⟩ := addContexts_empty hfree
  refine ⟨pd', ?_, hwell, ?_, ?_⟩
  · rw [updateContexts]
    simp only
    rw [foldlM_handleDirec_create hsupported]
    exact hall
  · intro e he token htoken
    have hcreated : ((⟨e.1.getTokenList ++ [token]⟩ : Context), createdValue e.2 token) ∈
        (listed tree).flatMap (createdContexts tokens) :=
      List.mem_flatMap.mpr ⟨e, he, List.mem_map_of_mem htoken⟩
    have hsent := sentTo_of_mem (nodup_created (nodup_keys_listed h) hkeys) hcreated
    have heq : (⟨e.1.getTokenList ++ [token]⟩ : Context).keys = e.1.keys ++ [key token] := by
      simp [Context.keys]
    rw [heq] at hsent
    rw [hinfo, hsent]
    rfl
  · intro ks a ha
    by_contra hno
    have hsent : sentTo ((listed tree).flatMap (createdContexts tokens)) ks = [] := by
      apply sentTo_of_notMem
      intro e' he' heq
      obtain ⟨e, he, hcreated⟩ := List.mem_flatMap.mp he'
      obtain ⟨token, htoken, rfl⟩ := List.mem_map.mp hcreated
      exact hno ⟨e, he, token, htoken, by simp [← heq, Context.keys]⟩
    rw [hinfo, hsent] at ha
    cases ha

/-- A directive does to the tree what `Context::update` does to each recorded context: the
information of the contexts that it maps to one context is joined there. -/
theorem updateContexts_agrees (h : pd.WellFormed) (hpd : pd.isBottom = false) {direc : Directive}
    (hdirec : Applies direc pd) : ∃ l moved pd', pd.getAnalysisInfoPerContext = .ok l ∧
      moveAll (fun ctx => ctx.update direc) l = .ok moved ∧ pd.updateContexts direc = .ok pd' ∧
      pd'.WellFormed ∧ pd'.Holds moved := by
  obtain ⟨_ | tree⟩ := pd
  · cases hpd
  · have hwell := h tree rfl
    have hlisted := getAnalysisInfoPerContext_eq hwell
    obtain ⟨_ | _, tokens⟩ := direc
    · obtain ⟨hsupported, hkeys, first, hfirst⟩ := hdirec
      obtain ⟨pd', hupdate, hwell', hinfo, honly⟩ :=
        updateContexts_create hwell hsupported hkeys
      let next (ctx : Context) : Context := ⟨ctx.getTokenList ++ [first]⟩
      have hmoved : moveAll (fun ctx => ctx.update ⟨.create, tokens⟩) (listed tree) =
          .ok ((listed tree).map fun e => (next e.1, e.2)) := by
        apply moveAll_eq
        intro e _
        have hcreate : e.1.update ⟨.create, tokens⟩ = e.1.create tokens := rfl
        rw [hcreate, Context.create, createdToken_eq hsupported hfirst]
        rfl
      have hnext (ctx : Context) : (next ctx).keys = ctx.keys ++ [key first] := by
        simp [next, Context.keys]
      refine ⟨listed tree, _, pd', hlisted, hmoved, hupdate, hwell', ?_⟩
      intro ks
      by_cases hsource : ∃ e ∈ listed tree, e.1.keys ++ [key first] = ks
      · obtain ⟨e, he, rfl⟩ := hsource
        have hnodup : (((listed tree).map fun e => (next e.1, e.2)).map fun e =>
            e.1.keys).Nodup := by
          have hkeysNext : (((listed tree).map fun e => (next e.1, e.2)).map fun e => e.1.keys) =
              ((listed tree).map fun e => e.1.keys).map fun c => c ++ [key first] := by
            rw [List.map_map, List.map_map]
            exact List.map_congr_left fun e _ => hnext e.1
          rw [hkeysNext]
          exact (nodup_keys_listed hwell).map fun c c' heq => List.append_cancel_right heq
        have hsent := sentTo_of_mem hnodup
          (List.mem_map_of_mem (f := fun e => (next e.1, e.2)) he)
        rw [hnext] at hsent
        have hmem : first ∈ tokens.filter fun token => Starts token :=
          hfirst ▸ List.mem_singleton_self first
        obtain ⟨hmem, hstarts⟩ := List.mem_filter.mp hmem
        refine .inr ⟨by simp [hsent], [e.2], by rw [hsent], ?_⟩
        rw [hinfo e he first hmem, createdValue, if_pos (of_decide_eq_true hstarts)]
        rfl
      · refine .inl ⟨?_, ?_⟩
        · apply sentTo_of_notMem
          intro e' he' heq
          obtain ⟨e, he, rfl⟩ := List.mem_map.mp he'
          exact hsource ⟨e, he, (hnext e.1).symm.trans heq⟩
        · intro a ha
          obtain ⟨e, he, token, htoken, rfl⟩ := honly ks a ha
          rw [hinfo e he token htoken] at ha
          have hstarts : ¬Starts token := by
            intro hstarts
            have hmem : token ∈ tokens.filter fun token => Starts token :=
              List.mem_filter.mpr ⟨htoken, decide_eq_true hstarts⟩
            rw [hfirst] at hmem
            exact hsource ⟨e, he, by rw [List.mem_singleton.mp hmem]⟩
          rw [createdValue, if_neg hstarts] at ha
          exact (Option.some.inj ha).symm
    · obtain ⟨moved, pd', hmoved, hupdate, hwell', hinfo⟩ := updateContexts_merge hwell hdirec
      refine ⟨listed tree, moved, pd', hlisted, hmoved, hupdate, hwell', ?_⟩
      intro ks
      by_cases hsent : sentTo moved ks = []
      · refine .inl ⟨hsent, fun a ha => ?_⟩
        rw [hinfo, hsent] at ha
        cases ha
      · exact .inr ⟨hsent, _, .refl _, hinfo ks⟩

end Agreement

end PartitioningDomain

end Llvmta
