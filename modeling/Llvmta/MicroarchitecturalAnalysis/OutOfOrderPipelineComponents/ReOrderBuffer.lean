import Llvmta.Library.OrderedMap
import Llvmta.Library.RingBuffer
import Llvmta.MicroarchitecturalAnalysis.MicroArchitecturalState

/-!
# The reorder buffer and the register status table

The reorder buffer keeps the issued instructions in a ring of eight slots, from the head,
which is committed next, to the tail, which is free. An instruction is known by the number
of its slot, its tag. The register status table holds for each register the tag of the
instruction that will write it.
-/

namespace Llvmta.MicroArch

open Checked RingBuffer

abbrev RobTag := Fin 8

inductive RobState where
  | execute
  | writeBack
  deriving DecidableEq, Repr

structure ReOrderBufferElement where
  executionElement : ExecutionElement
  state : RobState
  destRegs : OrderedMap ℕ Unit
  deriving DecidableEq, Repr

structure RegisterStatusTable where
  regStatTbl : OrderedMap ℕ RobTag
  deriving DecidableEq, Repr

namespace RegisterStatusTable

def new : RegisterStatusTable := ⟨.empty⟩

/-- Overwrites old entries, since this happens in order. -/
def markNewWriteBack (t : RegisterStatusTable) (reg : ℕ) (robTag : RobTag) :
    RegisterStatusTable := ⟨t.regStatTbl.insert reg robTag⟩

/-- A register without an entry gets the entry 0 when it is looked up. -/
def lookedUp (t : RegisterStatusTable) (reg : ℕ) : RegisterStatusTable :=
  if t.regStatTbl.find? reg = none then ⟨t.regStatTbl.insert reg 0⟩ else t

def writeResultBack (t : RegisterStatusTable) (reg : ℕ) (robTag : RobTag) :
    RegisterStatusTable :=
  if (t.lookedUp reg).regStatTbl.find? reg = some robTag then
    ⟨(t.lookedUp reg).regStatTbl.erase reg⟩
  else t.lookedUp reg

def getRobTag (t : RegisterStatusTable) (reg : ℕ) : Option RobTag := t.regStatTbl.find? reg

end RegisterStatusTable

structure ReOrderBuffer where
  rob : Vector (Option ReOrderBufferElement) 8
  robTail : RobTag
  robHead : RobTag
  deriving DecidableEq, Repr

namespace ReOrderBuffer

variable (P : Program)

def new : ReOrderBuffer := ⟨Vector.replicate 8 none, 0, 0⟩

def getRelativeToHead (r : ReOrderBuffer) (number : RobTag) : ℕ := offset r.robHead number

/-- The slots are compared relative to the heads. -/
def equals (r r' : ReOrderBuffer) : Bool :=
  (List.range 8).all fun i => r.rob.get (slot r.robHead i) == r'.rob.get (slot r'.robHead i)

/-- The element of a slot that is asserted to be occupied. -/
def elementAt (r : ReOrderBuffer) (robInd : RobTag) (message : String) :
    Except Fault ReOrderBufferElement :=
  match r.rob.get robInd with
  | some elem => .ok elem
  | none => .error (.assertion message)

def getExecutionElementForRobTag (r : ReOrderBuffer) (robInd : RobTag) :
    Except Fault ExecutionElement := do
  let elem ← r.elementAt robInd "No Instruction at given position in re order buffer."
  .ok elem.executionElement

def isFull (r : ReOrderBuffer) : Bool := (r.rob.get r.robTail).isSome

def isEmpty (r : ReOrderBuffer) : Bool :=
  decide (r.robHead = r.robTail) && (r.rob.get r.robHead).isNone

def isExecuted (r : ReOrderBuffer) (robTag : RobTag) : Bool :=
  match r.rob.get robTag with
  | some elem => decide (elem.state = .writeBack)
  | none => false

/-- The buffer and the table with the new instruction, and its tag. -/
def issueInstruction (r : ReOrderBuffer) (rst : RegisterStatusTable) (ee : ExecutionElement) :
    Except Fault (ReOrderBuffer × RegisterStatusTable × RobTag) := do
  assertThat (!r.isFull) "Tried dispatching to a full re order buffer."
  let mi ← P.instrAt ee.1
  let destRegs := mi.definedRegisters.foldl (fun regs reg => regs.insert reg ()) .empty
  let rst := mi.definedRegisters.foldl (fun t reg => t.markNewWriteBack reg r.robTail) rst
  .ok ({ r with rob := r.rob.set r.robTail (some ⟨ee, .execute, destRegs⟩)
                robTail := next r.robTail }, rst, r.robTail)

def finishExecution (r : ReOrderBuffer) (robTag : RobTag) : Except Fault ReOrderBuffer := do
  let elem ← r.elementAt robTag
    "There was no element in the reorder buffer at the given array index."
  .ok { r with rob := r.rob.set robTag (some { elem with state := .writeBack }) }

/-- Only one of these is committed in a cycle. -/
def endsCommit (mi : MachineInstr) : Bool := mi.isConditionalBranch || mi.isCall || mi.isReturn

/-- Removes the element at the head, which is the given one. -/
def commitHead (r : ReOrderBuffer) : ReOrderBuffer :=
  { r with rob := r.rob.set r.robHead none, robHead := next r.robHead }

/-- The registers of the element at the head are written back. -/
def writeBackHead (r : ReOrderBuffer) (rst : RegisterStatusTable) (elem : ReOrderBufferElement) :
    RegisterStatusTable :=
  elem.destRegs.keys.foldl (fun t dest => t.writeResultBack dest r.robHead) rst

/-- Commits executed instructions from the head on. The number bounds the rounds. -/
def commitLoop : ℕ → ReOrderBuffer → RegisterStatusTable →
    Except Fault (ReOrderBuffer × RegisterStatusTable × List ExecutionElement)
  | 0, _, _ => .error .divergence
  | rounds + 1, r, rst =>
    match r.rob.get r.robHead with
    | none => .ok (r, rst, [])
    | some elem =>
      if elem.state = .writeBack then do
        let mi ← P.instrAt elem.executionElement.1
        if endsCommit mi then
          .ok (r.commitHead, r.writeBackHead rst elem, [elem.executionElement])
        else
          let (r', rst', committed) ← commitLoop rounds r.commitHead (r.writeBackHead rst elem)
          .ok (r', rst', elem.executionElement :: committed)
      else .ok (r, rst, [])

def commitInstructions (r : ReOrderBuffer) (rst : RegisterStatusTable) :
    Except Fault (ReOrderBuffer × RegisterStatusTable × List ExecutionElement) := do
  if (r.rob.get r.robHead).isNone then
    assertThat (decide (r.robHead = r.robTail)) "Tail pointer of reorder buffer is wrong!"
  commitLoop P 9 r rst

/-- Finishes the instruction on the common data bus and commits. -/
def cycle (r : ReOrderBuffer) (rst : RegisterStatusTable) (cdb : Option RobTag) :
    Except Fault (ReOrderBuffer × RegisterStatusTable × List ExecutionElement) := do
  match cdb with
  | some cdbTag => do
    let r ← r.finishExecution cdbTag
    commitInstructions P r rst
  | none => commitInstructions P r rst

/-- A branch, call or return from `cnt` up to the tag. The number bounds the rounds. -/
def branchFrom (r : ReOrderBuffer) (robTag : RobTag) : ℕ → RobTag → Except Fault Bool
  | 0, _ => .error .divergence
  | rounds + 1, cnt =>
    if cnt = robTag then .ok false
    else do
      let elem ← r.elementAt cnt
        "There was no rob element at a position between robHead and robTag."
      let mi ← P.instrAt elem.executionElement.1
      if endsCommit mi then .ok true else branchFrom r robTag rounds (next cnt)

def isUnresolvedBranchBefore (r : ReOrderBuffer) (robTag : RobTag) : Except Fault Bool :=
  branchFrom P r robTag 8 r.robHead

/-- `while (robHead != robTail)`: the number bounds the rounds. -/
def flushLoop : ℕ → ReOrderBuffer → Except Fault ReOrderBuffer
  | 0, _ => .error .divergence
  | rounds + 1, r =>
    if r.robHead = r.robTail then .ok r else flushLoop rounds r.commitHead

def flush (r : ReOrderBuffer) : Except Fault ReOrderBuffer := do
  if r.isFull then do
    assertThat (r.rob.toList.all Option.isSome) "Reorder buffer full, but empty entry found."
    flushLoop 8 { r with rob := Vector.replicate 8 none }
  else flushLoop 8 r

def getHeadElement (r : ReOrderBuffer) : Option ExecutionElement :=
  (r.rob.get r.robHead).map ReOrderBufferElement.executionElement

/-- Whether the instruction with the tag is being executed. -/
def isExecuting (r : ReOrderBuffer) (robTag : RobTag) : Bool :=
  match r.rob.get robTag with
  | some elem => decide (elem.state = .execute)
  | none => false

def getExecutingRobTags (r : ReOrderBuffer) : List RobTag :=
  (List.finRange 8).filter r.isExecuting

/-- The elements from the head to the tail. -/
def elements (r : ReOrderBuffer) : List ReOrderBufferElement := RingBuffer.toList r.rob r.robHead

/-- The slots hold the elements of the list and nothing else. -/
def Holds (r : ReOrderBuffer) (l : List ReOrderBufferElement) : Prop :=
  RingBuffer.Holds r.rob r.robHead r.robTail l

section Spec

variable {P} {r r' : ReOrderBuffer} {rst rst' : RegisterStatusTable} {tag : RobTag}
  {l : List ReOrderBufferElement}

theorem Holds.elements_eq (h : r.Holds l) : r.elements = l := h.toList_eq

theorem holds_new : new.Holds [] := RingBuffer.Holds.empty 0

theorem Holds.isExecuting_iff (h : r.Holds l) : r.isExecuting tag = true ↔
    ∃ k elem, slot r.robHead k = tag ∧ l[k]? = some elem ∧ elem.state = .execute := by
  have hslot : r.isExecuting tag = true ↔
      ∃ elem, r.rob.get tag = some elem ∧ elem.state = .execute := by
    unfold isExecuting
    split <;> simp_all
  rw [hslot, exists_comm]
  constructor
  · rintro ⟨elem, hget, hstate⟩
    obtain ⟨k, hk, hl⟩ := h.get_eq_some_iff.mp hget
    exact ⟨elem, k, hk, hl, hstate⟩
  · rintro ⟨elem, k, hk, hl, hstate⟩
    exact ⟨elem, h.get_eq_some_iff.mpr ⟨k, hk, hl⟩, hstate⟩

/-- Which registers an instruction writes. -/
theorem mem_keys_destRegs (regs : List ℕ) (set : OrderedMap ℕ Unit) (reg : ℕ) :
    reg ∈ (regs.foldl (fun regs reg => regs.insert reg ()) set).keys ↔
      reg ∈ regs ∨ reg ∈ set.keys := by
  induction regs generalizing set with
  | nil => simp
  | cons r regs ih =>
    rw [List.foldl_cons, ih, OrderedMap.mem_keys, OrderedMap.mem_keys, OrderedMap.find?_insert,
      List.mem_cons]
    split_ifs with h
    · simp [h]
    · simp [Ne.symm h]

/-- The new element is behind the others, and the registers it writes are marked. -/
theorem Holds.issueInstruction_eq_ok {ee : ExecutionElement} (h : r.Holds l)
    (hissue : r.issueInstruction P rst ee = .ok (r', rst', tag)) :
    ∃ mi destRegs, P.getMachineInstrByAddr ee.1 = some mi ∧ l.length < 8 ∧
      tag = slot r.robHead l.length ∧ r'.robHead = r.robHead ∧
      r'.Holds (l ++ [⟨ee, .execute, destRegs⟩]) ∧
      (∀ reg, reg ∈ destRegs.keys ↔ reg ∈ mi.definedRegisters) ∧
      rst' = mi.definedRegisters.foldl (fun t reg => t.markNewWriteBack reg tag) rst := by
  obtain ⟨_, hfull, hissue⟩ := bind_eq_ok.mp hissue
  obtain ⟨mi, hmi, hissue⟩ := bind_eq_ok.mp hissue
  cases hissue
  have hfree : r.rob.get r.robTail = none := by
    have hfull : (!r.isFull) = true := of_assertThat hfull
    simpa [isFull] using hfull
  refine ⟨mi, _, Program.instrAt_eq_ok.mp hmi, h.tail_eq_none_iff.mp hfree, h.tail_eq, rfl,
    h.push hfree _, fun reg => ?_, rfl⟩
  rw [mem_keys_destRegs]
  simp [OrderedMap.mem_keys]

/-- An element that is put behind the others is executing, beside those that were. -/
theorem isExecuting_of_push (tag : RobTag) {elem : ReOrderBufferElement} (h : r.Holds l)
    (h' : r'.Holds (l ++ [elem])) (hhead : r'.robHead = r.robHead) (hstate : elem.state = .execute) :
    r'.isExecuting tag = true ↔ r.isExecuting tag = true ∨ tag = slot r.robHead l.length := by
  rw [h.isExecuting_iff, h'.isExecuting_iff, hhead]
  constructor
  · rintro ⟨k, elem', rfl, hk, hstate'⟩
    rw [List.getElem?_append] at hk
    split_ifs at hk with hlt
    · exact .inl ⟨k, elem', rfl, hk, hstate'⟩
    · have hlast : k - l.length < 1 := (List.getElem?_eq_some_iff.mp hk).1
      exact .inr (congrArg (slot r.robHead) (by omega))
  · rintro (⟨k, elem', rfl, hk, hstate'⟩ | rfl)
    · have hlt : k < l.length := (List.getElem?_eq_some_iff.mp hk).1
      exact ⟨k, elem', rfl, (List.getElem?_append_left hlt).trans hk, hstate'⟩
    · exact ⟨l.length, elem, rfl, List.getElem?_concat_length, hstate⟩

/-- The tail is free as long as there is room. -/
theorem Holds.not_isExecuting_tail (h : r.Holds l) (hlt : l.length < 8) :
    r.isExecuting (slot r.robHead l.length) = false := by
  rw [Bool.eq_false_iff, Ne, h.isExecuting_iff]
  rintro ⟨k, elem, hk, hget, _⟩
  have hlt' : k < l.length := (List.getElem?_eq_some_iff.mp hget).1
  exact hlt'.ne (slot_injective (hlt'.trans hlt) hlt hk)

theorem Holds.finishExecution_eq_ok (h : r.Holds l) (hfinish : r.finishExecution tag = .ok r') :
    ∃ k elem, slot r.robHead k = tag ∧ l[k]? = some elem ∧ r'.robHead = r.robHead ∧
      r'.Holds (l.set k { elem with state := .writeBack }) := by
  obtain ⟨elem, helem, hfinish⟩ := bind_eq_ok.mp hfinish
  cases hfinish
  have hget : r.rob.get tag = some elem := by
    unfold elementAt at helem
    split at helem <;> cases helem
    assumption
  obtain ⟨k, rfl, hl⟩ := h.get_eq_some_iff.mp hget
  have hlt : k < l.length := (List.getElem?_eq_some_iff.mp hl).1
  exact ⟨k, elem, rfl, hl, rfl, RingBuffer.Holds.set h hlt _⟩

/-- The committed elements are executed and the first ones, and only the last of them can
be a branch, call or return. What the commit of one element preserves is preserved. -/
theorem Holds.commitLoop_eq_ok {I : RobTag → List ReOrderBufferElement → RegisterStatusTable → Prop}
    (hstep : ∀ head elem l t, elem.state = .writeBack → I head (elem :: l) t →
      I (next head) l (elem.destRegs.keys.foldl (fun t dest => t.writeResultBack dest head) t))
    {rounds : ℕ} {committed : List ExecutionElement} (h : r.Holds l) (hI : I r.robHead l rst)
    (hcommit : commitLoop P rounds r rst = .ok (r', rst', committed)) :
    ∃ done rest, l = done ++ rest ∧ r'.Holds rest ∧ r'.robHead = slot r.robHead done.length ∧
      committed = done.map ReOrderBufferElement.executionElement ∧
      (∀ elem ∈ done, elem.state = .writeBack) ∧
      (∀ ee ∈ committed.dropLast, ∃ mi,
        P.getMachineInstrByAddr ee.1 = some mi ∧ endsCommit mi = false) ∧
      I r'.robHead rest rst' := by
  induction rounds generalizing r rst l r' rst' committed with
  | zero => cases hcommit
  | succ rounds ih =>
    have hstop : r.robHead = slot r.robHead 0 := (slot_zero _).symm
    unfold commitLoop at hcommit
    split at hcommit
    · cases hcommit
      exact ⟨[], l, rfl, h, hstop, rfl, by simp, by simp, hI⟩
    · next elem hget =>
      split at hcommit
      · next hstate =>
        obtain ⟨mi, hmi, hcommit⟩ := bind_eq_ok.mp hcommit
        rw [h.get_head] at hget
        obtain ⟨l, rfl⟩ := List.head?_eq_some_iff.mp hget
        have hI' : I (next r.robHead) l (r.writeBackHead rst elem) := hstep _ _ _ _ hstate hI
        split at hcommit
        · cases hcommit
          refine ⟨[elem], l, rfl, h.pop, next_eq_slot _, rfl, ?_, by simp, hI'⟩
          simpa using hstate
        · next hends =>
          obtain ⟨⟨r₂, rst₂, committed₂⟩, hcommit₂, hcommit⟩ := bind_eq_ok.mp hcommit
          cases hcommit
          obtain ⟨done, rest, rfl, hrest, hhead, rfl, hdone, hlast, hI₂⟩ :=
            ih (r := r.commitHead) h.pop hI' hcommit₂
          refine ⟨elem :: done, rest, rfl, hrest, ?_, rfl, ?_, ?_, hI₂⟩
          · have hnext : r.commitHead.robHead = slot r.robHead 1 := next_eq_slot _
            rw [hhead, hnext, slot_slot, List.length_cons, Nat.add_comm]
          · exact List.forall_mem_cons.mpr ⟨hstate, hdone⟩
          · intro ee hee
            cases done with
            | nil => exact absurd hee (by simp)
            | cons elem' done =>
              rw [List.map_cons, List.dropLast_cons_cons] at hee
              rcases List.mem_cons.mp hee with rfl | hee
              · exact ⟨mi, Program.instrAt_eq_ok.mp hmi, Bool.eq_false_iff.mpr hends⟩
              · exact hlast ee hee
      · cases hcommit
        exact ⟨[], l, rfl, h, hstop, rfl, by simp, by simp, hI⟩

/-- The elements when the one with the tag on the bus is executed. -/
def finished (head : RobTag) (cdb : Option RobTag) (l : List ReOrderBufferElement) :
    List ReOrderBufferElement :=
  l.mapIdx fun k elem => if cdb = some (slot head k) then { elem with state := .writeBack } else elem

@[simp] theorem length_finished (head : RobTag) (cdb : Option RobTag)
    (l : List ReOrderBufferElement) : (finished head cdb l).length = l.length :=
  List.length_mapIdx

theorem getElem?_finished (head : RobTag) (cdb : Option RobTag) (l : List ReOrderBufferElement)
    (k : ℕ) : (finished head cdb l)[k]? = l[k]?.map fun elem =>
      if cdb = some (slot head k) then { elem with state := .writeBack } else elem :=
  List.getElem?_mapIdx

@[simp] theorem map_finished {β : Type*} (f : ReOrderBufferElement → β)
    (hf : ∀ elem, f { elem with state := .writeBack } = f elem) (head : RobTag)
    (cdb : Option RobTag) (l : List ReOrderBufferElement) :
    (finished head cdb l).map f = l.map f := by
  apply List.ext_getElem?
  intro k
  rw [List.getElem?_map, List.getElem?_map, getElem?_finished, Option.map_map]
  congr 1
  funext elem
  rw [Function.comp_apply]
  split_ifs
  · exact hf elem
  · rfl

/-- The instruction on the bus is executed before instructions are committed. -/
theorem Holds.cycle_eq_ok {I : RobTag → List ReOrderBufferElement → RegisterStatusTable → Prop}
    (hstep : ∀ head elem l t, elem.state = .writeBack → I head (elem :: l) t →
      I (next head) l (elem.destRegs.keys.foldl (fun t dest => t.writeResultBack dest head) t))
    {cdb : Option RobTag} {committed : List ExecutionElement} (h : r.Holds l)
    (hI : I r.robHead (finished r.robHead cdb l) rst)
    (hcycle : r.cycle P rst cdb = .ok (r', rst', committed)) :
    ∃ done rest, finished r.robHead cdb l = done ++ rest ∧ r'.Holds rest ∧
      r'.robHead = slot r.robHead done.length ∧
      committed = done.map ReOrderBufferElement.executionElement ∧
      (∀ elem ∈ done, elem.state = .writeBack) ∧
      (∀ ee ∈ committed.dropLast, ∃ mi,
        P.getMachineInstrByAddr ee.1 = some mi ∧ endsCommit mi = false) ∧
      I r'.robHead rest rst' := by
  have hcommit : ∃ r₁, r₁.robHead = r.robHead ∧ r₁.Holds (finished r.robHead cdb l) ∧
      commitInstructions P r₁ rst = .ok (r', rst', committed) := by
    cases cdb with
    | none =>
      have hid : finished r.robHead none l = l := by
        apply List.ext_getElem?
        intro k
        rw [getElem?_finished]
        simp
      exact ⟨r, rfl, hid.symm ▸ h, hcycle⟩
    | some tag =>
      obtain ⟨r₁, hfinish, hcommit⟩ := bind_eq_ok.mp hcycle
      obtain ⟨k, elem, rfl, hk, hhead, hholds⟩ := h.finishExecution_eq_ok hfinish
      have hset : finished r.robHead (some (slot r.robHead k)) l =
          l.set k { elem with state := .writeBack } := by
        have hlt : k < l.length := (List.getElem?_eq_some_iff.mp hk).1
        apply List.ext_getElem?
        intro j
        rw [getElem?_finished, List.getElem?_set]
        by_cases hj : k = j
        · subst hj
          rw [hk, if_pos rfl, if_pos hlt, Option.map_some, if_pos rfl]
        · rw [if_neg hj]
          cases hget : l[j]? with
          | none => rfl
          | some elem' =>
            have hne : slot r.robHead k ≠ slot r.robHead j := by
              have hjlt : j < l.length := (List.getElem?_eq_some_iff.mp hget).1
              exact slot_ne (hlt.trans_le h.length_le) (hjlt.trans_le h.length_le) hj
            rw [Option.map_some, if_neg fun heq => hne (Option.some.inj heq)]
      exact ⟨r₁, hhead, hset.symm ▸ hholds, hcommit⟩
  obtain ⟨r₁, hhead, hholds, hcommit⟩ := hcommit
  have hloop : commitLoop P 9 r₁ rst = .ok (r', rst', committed) := by
    unfold commitInstructions at hcommit
    split at hcommit
    · obtain ⟨_, _, hcommit⟩ := bind_eq_ok.mp hcommit
      exact hcommit
    · exact hcommit
  have hspec := hholds.commitLoop_eq_ok hstep (hhead ▸ hI) hloop
  rwa [hhead] at hspec

/-- What was executing does so after the cycle, but for the instruction on the bus. -/
theorem isExecuting_of_cycle (tag : RobTag) {cdb : Option RobTag} {done rest : List ReOrderBufferElement}
    (h : r.Holds l) (hrest : r'.Holds rest) (hhead : r'.robHead = slot r.robHead done.length)
    (heq : finished r.robHead cdb l = done ++ rest)
    (hdone : ∀ elem ∈ done, elem.state = .writeBack) :
    r'.isExecuting tag = true ↔ r.isExecuting tag = true ∧ cdb ≠ some tag := by
  have hget (j : ℕ) : rest[j]? = (finished r.robHead cdb l)[done.length + j]? := by
    rw [heq, List.getElem?_append_right (Nat.le_add_right _ _), Nat.add_sub_cancel_left]
  have hslot (j : ℕ) : slot r'.robHead j = slot r.robHead (done.length + j) := by
    rw [hhead, slot_slot]
  rw [hrest.isExecuting_iff, h.isExecuting_iff]
  constructor
  · rintro ⟨j, elem, rfl, hj, hstate⟩
    rw [hget, getElem?_finished] at hj
    obtain ⟨elem₀, helem₀, rfl⟩ := Option.map_eq_some_iff.mp hj
    split_ifs at hstate with hbus
    refine ⟨⟨_, elem₀, (hslot j).symm, helem₀, hstate⟩, ?_⟩
    rwa [hslot]
  · rintro ⟨⟨k, elem, rfl, hk, hstate⟩, hbus⟩
    have hfinished : (finished r.robHead cdb l)[k]? = some elem := by
      rw [getElem?_finished, hk, Option.map_some, if_neg hbus]
    have hle : done.length ≤ k := by
      by_contra hlt
      rw [heq, List.getElem?_append_left (not_le.mp hlt)] at hfinished
      have hwriteBack := hdone elem (List.mem_of_getElem? hfinished)
      exact nomatch hstate.symm.trans hwriteBack
    obtain ⟨j, rfl⟩ := Nat.exists_eq_add_of_le hle
    exact ⟨j, elem, hslot j, (hget j).trans hfinished, hstate⟩

theorem Holds.flushLoop_eq_ok {rounds : ℕ} (h : r.Holds l) (hlt : l.length < 8)
    (hflush : flushLoop rounds r = .ok r') : r'.Holds [] := by
  induction rounds generalizing r l with
  | zero => cases hflush
  | succ rounds ih =>
    unfold flushLoop at hflush
    cases l with
    | nil =>
      have hhead : r.robHead = r.robTail := (slot_zero _).symm.trans h.tail_eq.symm
      rw [if_pos hhead] at hflush
      cases hflush
      exact h
    | cons elem l =>
      have hne : r.robHead ≠ r.robTail := by
        intro heq
        have hzero : slot r.robHead 0 = slot r.robHead (elem :: l).length := by
          rw [slot_zero]
          exact heq.trans h.tail_eq
        have hlength := slot_injective (by omega) hlt hzero
        exact absurd hlength.symm (Nat.succ_ne_zero _)
      rw [if_neg hne] at hflush
      exact ih (r := r.commitHead) h.pop (Nat.lt_of_succ_lt hlt) hflush

theorem Holds.flush_eq_ok (h : r.Holds l) (hflush : r.flush = .ok r') : r'.Holds [] := by
  unfold flush at hflush
  split at hflush
  · next hfull =>
    obtain ⟨_, _, hflush⟩ := bind_eq_ok.mp hflush
    have hlength : l.length = 8 := by
      have hnone : r.rob.get r.robTail ≠ none := Option.isSome_iff_ne_none.mp hfull
      have hlt := h.tail_eq_none_iff.not.mp hnone
      exact le_antisymm h.length_le (not_lt.mp hlt)
    have htail : r.robTail = r.robHead := by
      have htail := h.tail_eq
      rwa [hlength, slot_full] at htail
    have hempty : Holds { r with rob := Vector.replicate 8 none } [] := by
      have hempty := RingBuffer.Holds.empty (α := ReOrderBufferElement) r.robHead
      unfold Holds
      rwa [htail]
    exact hempty.flushLoop_eq_ok (by simp) hflush
  · next hfull =>
    have hnone : r.rob.get r.robTail = none := by simpa [isFull] using hfull
    exact h.flushLoop_eq_ok (h.tail_eq_none_iff.mp hnone) hflush

end Spec

end ReOrderBuffer

/-- The entries are compared relative to the heads of the reorder buffers. -/
def RegisterStatusTable.equals (t : RegisterStatusTable) (rob : ReOrderBuffer)
    (t' : RegisterStatusTable) (rob' : ReOrderBuffer) : Bool :=
  (t.regStatTbl.entries.all fun e =>
      (t'.regStatTbl.find? e.1).map rob'.getRelativeToHead == some (rob.getRelativeToHead e.2)) &&
    t.regStatTbl.entries.length == t'.regStatTbl.entries.length

end Llvmta.MicroArch
