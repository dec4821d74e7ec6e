import CilMethod.Proofs.CodeStream
import CilMethod.Proofs.DanglingTargets

/-!
# Why a body cannot be encoded

The encoder finds out on the way what is wrong with a body: it looks at flags, at stored indices and
at offsets that it has just computed, and stops where something does not fit. `Body.fault?` says the
same by the two orders alone, of the members and of the variables, and by the sizes of the members.
While the code is short enough for every distance to fit into four bytes, and the handlers are few
enough for their section, the encoder stops for this reason and no other (`faultOf_encode`).

What `fault?` finds dangling is what the queries `danglingTargets` and `danglingBoundaries` list,
although the first goes through the branches by handle and the second lists the boundaries in
another order (`mem_danglingTargets`, `mem_danglingBoundaries`).
-/

namespace CilMethod

/-- The cause of a failure, none for a success. -/
def faultOf {ε α : Type} : Except ε α → Option ε
  | .ok _ => none
  | .error e => some e

section FaultOf

variable {ε α β : Type}

@[simp]
theorem faultOf_ok (a : α) : faultOf (.ok a : Except ε α) = none := rfl

@[simp]
theorem faultOf_error (e : ε) : faultOf (.error e : Except ε α) = some e := rfl

theorem faultOf_eq_none {r : Except ε α} (h : faultOf r = none) : ∃ a, r = .ok a := by
  cases r with
  | ok a => exact ⟨a, rfl⟩
  | error e => cases h

theorem eq_error_of_faultOf {r : Except ε α} {e : ε} (h : faultOf r = some e) :
    r = .error e := by
  cases r with
  | ok a => cases h
  | error e' => rw [Option.some.inj h]

/-- What is done with a result does not add a fault if it cannot fail itself. -/
theorem faultOf_bind_pure (r : Except ε α) (f : α → β) :
    faultOf (r >>= fun a => pure (f a)) = faultOf r := by
  cases r <;> rfl

theorem faultOf_mapError {δ : Type} (r : Except ε α) (f : ε → δ) :
    faultOf (r.mapError f) = (faultOf r).map f := by
  cases r <;> rfl

theorem faultOf_bind (r : Except ε α) (f : α → Except ε β) {fault : Option ε}
    (h : ∀ a, r = .ok a → faultOf (f a) = fault) : faultOf (r >>= f) = (faultOf r).or fault := by
  cases r with
  | ok a => exact h a rfl
  | error e => rfl

/-- Going through a list stops at the first element that fails. -/
theorem faultOf_mapM (f : α → Except ε β) : ∀ xs : List α,
    faultOf (xs.mapM f) = xs.findSome? fun x => faultOf (f x)
  | [] => rfl
  | x :: xs => by
    rw [List.mapM_cons, List.findSome?_cons]
    cases hx : f x with
    | error e => rfl
    | ok y =>
      change faultOf (xs.mapM f >>= fun ys => pure (y :: ys)) = _
      rw [faultOf_bind_pure, faultOf_mapM f xs]
      rfl

end FaultOf

/-- The largest number of a variable or an argument that an operand type has room for. -/
def OperandType.maxNumber : OperandType → Nat
  | shortInlineVar | shortInlineArg => 255
  | _ => 65535

namespace Sequence

variable (s : Sequence)

/-- The sizes of the members before a member. -/
def startOf (id : InstructionId) : Nat := s.sizeBefore (s.order.toList.idxOf id)

/-- How far a member starts from the end of another. -/
def reach (origin target : InstructionId) : Int :=
  (s.startOf target : Int) - (s.startOf origin + sizeIn s.nodes origin : Nat)

/-- The first of some instructions that is not a member. -/
def missing? (ids : List InstructionId) : Option InstructionId :=
  ids.find? fun id => id ∉ s.order.toList

end Sequence

/-- The boundaries of a handler in the order in which its clause needs them. -/
def Handler.clauseBoundaries (h : Handler) : List InstructionId :=
  h.tryStart ::
    (h.tryEnd.toList ++ h.handlerStart :: (h.handlerEnd.toList ++ h.filterStart?.toList))

namespace Body

variable (b : Body)

/-- What is wrong with the operand of a member. -/
def operandFault? (id : InstructionId) (opcode : Opcode) : Operand → Option Error
  | .localVar v =>
    match b.locals.order.toList.idxOf? v with
    | none => some (.detachedVariable v)
    | some index =>
      if index ≤ opcode.operandType.maxNumber then none else some (.operandOutOfRange id)
  | .argument number =>
    if number.toNat ≤ opcode.operandType.maxNumber then none else some (.operandOutOfRange id)
  | .target target =>
    if target ∉ b.instructions.order.toList then some (.danglingReference target)
    else
      let distance := b.instructions.reach id target
      if opcode.operandType = .shortInlineBrTarget ∧ ¬ (-128 ≤ distance ∧ distance ≤ 127) then
        some (.branchOutOfRange id distance)
      else none
  | .switch targets => (b.instructions.missing? targets).map .danglingReference
  | _ => none

/-- What is wrong with a member. -/
def memberFault? (id : InstructionId) : Option Error :=
  (b.instructions.code? id).bind fun c => b.operandFault? id c.1 c.2

/-- What is wrong with a handler. -/
def handlerFault? (h : Handler) : Option Error :=
  (b.instructions.missing? h.clauseBoundaries).map .danglingReference

/-- The first thing that is wrong with a body: with the members in order, then with the handlers. -/
def fault? : Option Error :=
  if b.instructions.suppressed then some .recomputeSuppressed
  else
    (b.instructions.order.toList.findSome? b.memberFault?).or
      (b.handlers.toList.findSome? b.handlerFault?)

end Body

section Layout

variable {s : Sequence} {id : InstructionId} {i : Instruction}

namespace Sequence

theorem Consistent.contains_laidOut (hs : s.Consistent) :
    s.laidOut.contains id = decide (id ∈ s.order.toList) := by
  have h : s.laidOut.contains id = true ↔ id ∈ s.order := hs.laidOut.contains_iff
  rw [Bool.eq_iff_iff, h, decide_eq_true_eq, Array.mem_toList_iff]

theorem Consistent.offset_laidOut (hs : s.Consistent) (hid : id ∈ s.order)
    (hi : s.laidOut.node? id = some i) : i.offset = s.startOf id := by
  have hplace : s.get? (s.order.toList.idxOf id) = some id := by
    rw [get?_eq_toList]
    exact List.getElem?_idxOf (by simpa using hid)
  rw [node?_laidOut hs.nodup hplace] at hi
  obtain ⟨j, -, rfl⟩ := Option.map_eq_some_iff.1 hi
  rfl

theorem Consistent.offsetOf_laidOut (hs : s.Consistent) (hid : id ∈ s.order) :
    s.laidOut.offsetOf id = s.startOf id := by
  obtain ⟨i, hi⟩ := hs.laidOut.exists_node hid
  rw [offsetOf, hi]
  exact hs.offset_laidOut hid hi

theorem Consistent.size_laidOut (hs : s.Consistent) (hi : s.laidOut.node? id = some i) :
    i.size = sizeIn s.nodes id := by
  have h : sizeIn s.laidOut.nodes id = (s.laidOut.node? id).elim 0 Instruction.size := rfl
  rw [← sizeIn_laidOut hs.nodup, h, hi]
  rfl

/-- A member ends within the code. -/
theorem Consistent.startOf_add_le (hs : s.Consistent) (hid : id ∈ s.order) :
    s.startOf id + sizeIn s.nodes id ≤ s.codeSize := by
  obtain ⟨i, hi⟩ := hs.laidOut.exists_node hid
  have hmem : (id, i) ∈ s.laidOut.members := mk_mem_members.2 ⟨hid, hi⟩
  have hend : i.offset + i.size ≤ 0 + s.laidOut.codeSize := hs.located.end_le hmem
  rw [hs.offset_laidOut hid hi, hs.size_laidOut hi, hs.codeSize_laidOut] at hend
  omega

/-- In short code no distance needs more than four bytes. -/
theorem Consistent.reach_bounds (hs : s.Consistent) (hsize : s.codeSize < 1 <<< 31)
    {target : InstructionId} (hid : id ∈ s.order) (htarget : target ∈ s.order) :
    -(1 <<< 31 : Nat) < s.reach id target ∧ s.reach id target < (1 <<< 31 : Nat) := by
  have hend := hs.startOf_add_le hid
  have htend := hs.startOf_add_le htarget
  unfold reach
  omega

end Sequence

theorem Locals.Reachable.indexOf?_eq_idxOf? {l : Locals} (hl : l.Reachable) (v : VariableId) :
    l.indexOf? v = l.order.toList.idxOf? v := by
  refine Option.ext fun p => ?_
  rw [hl.indexOf?_eq_some_iff, Locals.get?_eq_toList, List.idxOf?_eq_some_iff,
    List.getElem?_eq_some_iff]
  refine exists_congr fun hp => ⟨fun h => ⟨h, fun q hq hsame => ?_⟩, fun h => h.1⟩
  have hpq : p = q := (List.getElem?_inj hp hl.numbered.nodup).1 (by
    rw [List.getElem?_eq_getElem hp, List.getElem?_eq_getElem (Nat.lt_trans hq hp), h, hsame])
  omega

end Layout

section Operands

variable {b : Body} {strings : UserStrings} {id : InstructionId} {i : Instruction}

theorem Image.faultOf_indexBytes (id : InstructionId) (type : OperandType) (index : Nat) :
    faultOf (indexBytes id type index) =
      if index ≤ type.maxNumber then none else some (.operandOutOfRange id) := by
  have hlimit : Bytes.limit (if type = .shortInlineVar ∨ type = .shortInlineArg then 1 else 2) =
      type.maxNumber + 1 := by
    cases type <;> simp [OperandType.maxNumber, Bytes.limit_one, Bytes.limit_two]
  simp only [indexBytes, hlimit, Nat.lt_succ_iff]
  split_ifs <;> rfl

/-- The distance to a target is as the order says, and only a short branch can fail to hold it. -/
theorem Image.faultOf_distanceBytes (hs : b.instructions.Consistent)
    (hsize : b.instructions.codeSize < 1 <<< 31) (hid : id ∈ b.instructions.order)
    (hi : b.instructions.laidOut.node? id = some i) (width : Nat) (target : InstructionId) :
    faultOf (distanceBytes b.instructions.laidOut id (i.offset + i.size) width target) =
      if target ∉ b.instructions.order.toList then some (.danglingReference target)
      else if Bytes.holdsSigned width (b.instructions.reach id target) then none
      else some (.branchOutOfRange id (b.instructions.reach id target)) := by
  rw [distanceBytes, hs.contains_laidOut]
  by_cases htarget : target ∈ b.instructions.order.toList
  · have hmem : target ∈ b.instructions.order := by simpa using htarget
    have hreach : Offset.distance (b.instructions.laidOut.offsetOf target) (i.offset + i.size) =
        b.instructions.reach id target := by
      have hend := hs.startOf_add_le hid
      have htend := hs.startOf_add_le hmem
      rw [hs.offsetOf_laidOut hmem, hs.offset_laidOut hid hi, hs.size_laidOut hi,
        Offset.distance_eq (by omega) (by omega)]
      rfl
    simp only [htarget, not_true, if_false, decide_true, if_true, hreach]
    split_ifs <;> rfl
  · simp [htarget]

theorem Image.holdsSigned_four (hs : b.instructions.Consistent)
    (hsize : b.instructions.codeSize < 1 <<< 31) (hid : id ∈ b.instructions.order)
    {target : InstructionId} (htarget : target ∈ b.instructions.order) :
    Bytes.holdsSigned 4 (b.instructions.reach id target) = true := by
  have hbounds := hs.reach_bounds hsize hid htarget
  have hlimit : Bytes.limit 4 / 2 = 1 <<< 31 := rfl
  rw [Bytes.holdsSigned, hlimit, Bool.and_eq_true, decide_eq_true_eq, decide_eq_true_eq]
  omega

theorem Image.faultOf_switch (hs : b.instructions.Consistent)
    (hsize : b.instructions.codeSize < 1 <<< 31) (hid : id ∈ b.instructions.order)
    (hi : b.instructions.laidOut.node? id = some i) (targets : List InstructionId) :
    faultOf (targets.mapM (distanceBytes b.instructions.laidOut id (i.offset + i.size) 4)) =
      (b.instructions.missing? targets).map .danglingReference := by
  rw [faultOf_mapM, Sequence.missing?]
  induction targets with
  | nil => rfl
  | cons target targets ih =>
    rw [List.findSome?_cons, List.find?_cons, faultOf_distanceBytes hs hsize hid hi]
    by_cases htarget : target ∈ b.instructions.order.toList
    · have hholds := holdsSigned_four hs hsize hid (Array.mem_toList_iff.1 htarget)
      simpa [htarget, hholds] using ih
    · simp [htarget]

/-- An operand cannot be written for the reason that the orders show. -/
theorem Image.faultOf_operandBytes (hb : b.Reachable)
    (hsize : b.instructions.codeSize < 1 <<< 31) (hid : id ∈ b.instructions.order)
    (hi : b.instructions.laidOut.node? id = some i) :
    faultOf (operandBytes strings b.instructions.laidOut b.locals id i) =
      b.operandFault? id i.opcode i.operand := by
  have hs := hb.instructions.consistent
  cases hoperand : i.operand with
  | localVar v =>
    simp only [operandBytes, hoperand, Body.operandFault?, hb.locals.indexOf?_eq_idxOf?]
    cases b.locals.order.toList.idxOf? v with
    | none => rfl
    | some index => exact faultOf_indexBytes ..
  | argument number =>
    simp only [operandBytes, hoperand, Body.operandFault?]
    exact faultOf_indexBytes ..
  | target target =>
    simp only [operandBytes, hoperand, Body.operandFault?, faultOf_distanceBytes hs hsize hid hi]
    by_cases htarget : target ∈ b.instructions.order.toList
    · have hholds := holdsSigned_four hs hsize hid (Array.mem_toList_iff.1 htarget)
      have hone : Bytes.limit 1 / 2 = 128 := rfl
      by_cases hshort : i.opcode.operandType = .shortInlineBrTarget
      · simp only [htarget, hshort, if_true, not_true, if_false, true_and, Bytes.holdsSigned, hone,
          Bool.and_eq_true, decide_eq_true_eq]
        split_ifs <;> first | rfl | omega
      · simp [htarget, hshort, hholds]
    · simp [htarget]
  | switch targets =>
    simp only [operandBytes, hoperand, Body.operandFault?]
    rw [faultOf_bind_pure, faultOf_switch hs hsize hid hi]
  | _ => simp [operandBytes, hoperand, Body.operandFault?]

end Operands

section Encode

variable {g : TypeGraph} {strings : UserStrings} {b : Body} {image : Image}

/-- Writing stops at the first instruction whose operand cannot be written. -/
theorem Image.faultOf_writeMembers {s : Sequence} {locals : Locals}
    {fault : InstructionId → Option Error} : ∀ {ids : List InstructionId} {strings : UserStrings}
      {code : Array UInt8},
    (∀ id ∈ ids, ∃ i, s.node? id = some i
      ∧ ∀ strings, faultOf (operandBytes strings s locals id i) = fault id) →
    faultOf (writeMembers s locals (ids.filterMap fun id => (s.node? id).map (id, ·)) strings
      code).1 = ids.findSome? fault
  | [], _, _, _ => rfl
  | id :: ids, strings, code, h => by
    obtain ⟨i, hi, hfault⟩ := h id List.mem_cons_self
    have hcons : (id :: ids).filterMap (fun id => (s.node? id).map (id, ·)) =
        (id, i) :: ids.filterMap fun id => (s.node? id).map (id, ·) := by
      rw [List.filterMap_cons, hi]
      rfl
    have hfault := hfault (noteStrings strings i)
    rw [hcons, writeMembers, List.findSome?_cons, ← hfault]
    cases operandBytes (noteStrings strings i) s locals id i with
    | error e => rfl
    | ok operand => exact faultOf_writeMembers fun k hk => h k (List.mem_cons_of_mem id hk)

theorem Image.faultOf_boundaryOffset (hs : b.instructions.Consistent) (codeSize : Nat)
    (id? : Option InstructionId) :
    faultOf (boundaryOffset b.instructions.laidOut codeSize id?) =
      (b.instructions.missing? id?.toList).map .danglingReference := by
  cases id? with
  | none => rfl
  | some id =>
    rw [boundaryOffset, hs.contains_laidOut, Sequence.missing?]
    by_cases h : id ∈ b.instructions.order.toList <;> simp only [Array.mem_toList_iff] at h <;>
      simp [h]

theorem Sequence.missing?_append (s : Sequence) (ids ids' : List InstructionId) :
    (s.missing? (ids ++ ids')).map Error.danglingReference =
      ((s.missing? ids).map Error.danglingReference).or
        ((s.missing? ids').map Error.danglingReference) := by
  rw [missing?, List.find?_append, Option.map_or]
  rfl

/-- A clause needs its boundaries one after the other. -/
theorem Image.faultOf_clauseBytes (hs : b.instructions.Consistent) (codeSize : Nat) (h : Handler) :
    faultOf (clauseBytes g b.instructions.laidOut codeSize h) = b.handlerFault? h := by
  have hboundaries : h.clauseBoundaries = (some h.tryStart).toList ++ (h.tryEnd.toList ++
      ((some h.handlerStart).toList ++ (h.handlerEnd.toList ++ h.filterStart?.toList))) := rfl
  rw [clauseBytes, faultOf_bind_pure, Body.handlerFault?, hboundaries]
  simp only [Sequence.missing?_append, ← faultOf_boundaryOffset hs codeSize]
  refine faultOf_bind _ _ fun _ _ => faultOf_bind _ _ fun _ _ => faultOf_bind _ _ fun _ _ =>
    faultOf_bind _ _ fun _ _ => ?_
  cases hkind : h.kind with
  | filterFrom start =>
    rw [Handler.filterStart?, hkind]
    exact faultOf_bind_pure ..
  | _ =>
    rw [Handler.filterStart?, hkind]
    rfl

/-- Three bytes hold the size of a section of so many clauses. -/
theorem Image.tableSize_lt {clauses : Nat} (h : clauses ≤ 699050) :
    (tableSize clauses).toNat < Bytes.limit 3 := by
  rw [toNat_tableSize, Bytes.limit_three, Bytes.limit_four, Nat.mod_eq_of_lt (by omega)]
  omega

theorem Image.faultOf_handlerTable (hs : b.instructions.Consistent) (codeSize : Nat)
    (hfits : (tableSize b.handlers.size).toNat < Bytes.limit 3) :
    faultOf (handlerTable g b.instructions.laidOut codeSize b.handlers.toList) =
      (b.handlers.toList.findSome? b.handlerFault?).map .fault := by
  rw [← Array.length_toList] at hfits
  rw [handlerTable]
  by_cases hempty : b.handlers.toList.isEmpty
  · simp [List.isEmpty_iff.1 hempty]
  · rw [if_neg hempty, if_neg (Nat.not_le.2 hfits), faultOf_bind_pure, faultOf_mapError,
      faultOf_mapM]
    exact congrArg (fun fault => (b.handlers.toList.findSome? fault).map Failure.fault)
      (funext fun h => faultOf_clauseBytes hs codeSize h)

/-- A body cannot be encoded for the first reason that its orders show, and for no other. -/
theorem Image.faultOf_encode (hb : b.Reachable) (hsize : b.instructions.codeSize < 1 <<< 31)
    (hfits : (tableSize b.handlers.size).toNat < Bytes.limit 3) :
    faultOf (encode g strings b).1 = b.fault?.map .fault := by
  have hs := hb.instructions.consistent
  rw [encode, Body.computeOffsets, Body.fault?]
  cases hsuppressed : b.instructions.suppressed with
  | true =>
    rw [Sequence.recompute_of_suppressed _ hsuppressed]
    rfl
  | false =>
    rw [Sequence.recompute_eq _ hsuppressed]
    have hshort : ¬ Bytes.limit 4 ≤ b.instructions.codeSize := by
      rw [Bytes.limit_four]
      omega
    dsimp only
    rw [if_neg hshort, if_neg Bool.false_ne_true]
    have hmembers : ∀ id ∈ b.instructions.order.toList, ∃ i,
        b.instructions.laidOut.node? id = some i
          ∧ ∀ strings, faultOf (operandBytes strings b.instructions.laidOut b.locals id i) =
            b.memberFault? id := by
      intro id hid
      have hid : id ∈ b.instructions.order := Array.mem_toList_iff.1 hid
      obtain ⟨i, hi⟩ := hs.laidOut.exists_node hid
      refine ⟨i, hi, fun strings => ?_⟩
      rw [faultOf_operandBytes hb hsize hid hi, Body.memberFault?,
        ← Sequence.code?_laidOut hs.nodup, Sequence.code?, hi]
      rfl
    have hwrite : faultOf (writeMembers b.instructions.laidOut b.locals
        b.instructions.laidOut.members strings #[]).1 =
        b.instructions.order.toList.findSome? b.memberFault? := faultOf_writeMembers hmembers
    rw [← hwrite, Option.map_or]
    cases writeMembers b.instructions.laidOut b.locals b.instructions.laidOut.members strings
      #[] with
    | mk written strings' =>
      cases written with
      | error e => rfl
      | ok code => exact (faultOf_bind_pure _ _).trans (faultOf_handlerTable hs _ hfits)

end Encode

section Dangling

variable {g : TypeGraph} {strings : UserStrings} {b : Body} {s : Sequence} {id : InstructionId}

theorem Sequence.targetsOf_eq {c : Opcode × Operand} (hc : s.code? id = some c) :
    s.targetsOf id = c.2.targets := by
  obtain ⟨i, hi, rfl⟩ := Option.map_eq_some_iff.1 hc
  rw [targetsOf, hi]
  rfl

theorem Handler.mem_clauseBoundaries {h : Handler} :
    id ∈ h.clauseBoundaries ↔ ∃ boundary, (boundary, id) ∈ h.boundaries := by
  simp only [clauseBoundaries, boundaries, List.mem_cons, List.mem_append, Option.mem_toList,
    Option.map_eq_some_iff, Prod.mk.injEq]
  constructor
  · rintro (rfl | h | rfl | h | h)
    · exact ⟨.tryStart, by simp⟩
    · exact ⟨.tryEnd, by simp [h]⟩
    · exact ⟨.handlerStart, by simp⟩
    · exact ⟨.handlerEnd, by simp [h]⟩
    · exact ⟨.filterStart, by simp [h]⟩
  · rintro ⟨boundary, h⟩
    grind

theorem Body.mem_danglingBoundaries (hs : b.instructions.Consistent) {position : Nat}
    {boundary : Boundary} :
    (position, boundary, id) ∈ b.danglingBoundaries ↔
      ∃ h, b.handlers.toList[position]? = some h ∧ (boundary, id) ∈ h.boundaries
        ∧ id ∉ b.instructions.order := by
  simp only [danglingBoundaries, List.mem_flatMap, List.mem_map, Prod.mk.injEq]
  constructor
  · rintro ⟨⟨h, p⟩, hp, x, hx, rfl, rfl⟩
    obtain ⟨hmem, hno⟩ := List.mem_filter.1 hx
    refine ⟨h, List.mk_mem_zipIdx_iff_getElem?.1 hp, hmem, fun hid => ?_⟩
    simp [hs.contains_iff.2 hid] at hno
  · rintro ⟨h, hp, hmem, hno⟩
    refine ⟨(h, position), List.mk_mem_zipIdx_iff_getElem?.2 hp, (boundary, id),
      List.mem_filter.2 ⟨hmem, ?_⟩, rfl, rfl⟩
    simpa using hs.contains_iff.not.2 hno

theorem Sequence.missing?_eq_none_iff {ids : List InstructionId} :
    s.missing? ids = none ↔ ∀ id ∈ ids, id ∈ s.order := by
  simp [missing?, List.find?_eq_none]

theorem Sequence.mem_of_missing? {ids : List InstructionId} (h : s.missing? ids = some id) :
    id ∈ ids ∧ id ∉ s.order :=
  ⟨List.mem_of_find?_eq_some h, by simpa using List.find?_some h⟩

theorem Body.targets_of_operandFault? {opcode : Opcode} {operand : Operand}
    (h : b.operandFault? id opcode operand = none) :
    ∀ target ∈ operand.targets, target ∈ b.instructions.order := by
  cases operand with
  | target target =>
    rw [operandFault?] at h
    split_ifs at h with hmem
    simpa [Operand.targets] using hmem
  | switch targets => exact Sequence.missing?_eq_none_iff.1 (Option.map_eq_none_iff.1 h)
  | _ => simp [Operand.targets]

/-- What can be wrong with an operand. -/
theorem Body.operandFault?_cases {opcode : Opcode} {operand : Operand} {e : Error}
    (h : b.operandFault? id opcode operand = some e) :
    (∃ v, operand = .localVar v ∧ v ∉ b.locals.order ∧ e = .detachedVariable v)
      ∨ e = .operandOutOfRange id
      ∨ (∃ target ∈ operand.targets, target ∉ b.instructions.order
        ∧ e = .danglingReference target)
      ∨ opcode.operandType = .shortInlineBrTarget
        ∧ ∃ distance, e = .branchOutOfRange id distance := by
  cases operand with
  | localVar v =>
    rw [operandFault?] at h
    split at h
    · rename_i hnone
      exact .inl ⟨v, rfl, by simpa [List.idxOf?_eq_none_iff] using hnone,
        (Option.some.inj h).symm⟩
    · split_ifs at h
      exact .inr (.inl (Option.some.inj h).symm)
  | argument number =>
    rw [operandFault?] at h
    split_ifs at h
    exact .inr (.inl (Option.some.inj h).symm)
  | target target =>
    simp only [operandFault?] at h
    split_ifs at h with hmem hshort
    · exact .inr (.inr (.inr ⟨hshort.1, _, (Option.some.inj h).symm⟩))
    · exact .inr (.inr (.inl ⟨target, List.mem_cons_self, by simpa using hmem,
        (Option.some.inj h).symm⟩))
  | switch targets =>
    obtain ⟨missing, hmissing, rfl⟩ := Option.map_eq_some_iff.1 h
    obtain ⟨hmem, hno⟩ := Sequence.mem_of_missing? hmissing
    exact .inr (.inr (.inl ⟨missing, hmem, hno, rfl⟩))
  | _ => cases h

/-- Only a target that is not a member makes an operand dangle. -/
theorem Body.target_of_operandFault? {opcode : Opcode} {operand : Operand} {target : InstructionId}
    (h : b.operandFault? id opcode operand = some (.danglingReference target)) :
    target ∈ operand.targets ∧ target ∉ b.instructions.order := by
  rcases operandFault?_cases h with ⟨v, -, -, he⟩ | he | ⟨missing, hmem, hno, he⟩ | ⟨-, d, he⟩
  · cases he
  · cases he
  · cases he
    exact ⟨hmem, hno⟩
  · cases he

theorem Body.dangling_eq_nil (hs : b.instructions.Consistent) (h : b.fault? = none) :
    b.instructions.danglingTargets = [] ∧ b.danglingBoundaries = [] := by
  rw [fault?] at h
  split_ifs at h
  obtain ⟨hmembers, hhandlers⟩ := Option.or_eq_none_iff.1 h
  rw [List.findSome?_eq_none_iff] at hmembers hhandlers
  refine ⟨List.eq_nil_iff_forall_not_mem.2 ?_, List.eq_nil_iff_forall_not_mem.2 ?_⟩
  · rintro ⟨branch, target⟩ hmem
    obtain ⟨hbranch, htarget, hno⟩ := hs.mem_danglingTargets.1 hmem
    obtain ⟨i, hi⟩ := hs.exists_node hbranch
    have hcode : b.instructions.code? branch = some (i.opcode, i.operand) := by
      rw [Sequence.code?, hi]
      rfl
    have hfault := hmembers branch (Array.mem_toList_iff.2 hbranch)
    rw [memberFault?, hcode] at hfault
    rw [Sequence.targetsOf_eq hcode] at htarget
    exact hno (targets_of_operandFault? hfault target htarget)
  · rintro ⟨position, boundary, id⟩ hmem
    obtain ⟨handler, hhandler, hboundary, hno⟩ := (mem_danglingBoundaries hs).1 hmem
    have hfault := hhandlers handler (List.mem_of_getElem? hhandler)
    exact hno (Sequence.missing?_eq_none_iff.1 (Option.map_eq_none_iff.1 hfault) id
      (Handler.mem_clauseBoundaries.2 ⟨boundary, hboundary⟩))

/-- What an encoding finds dangling, the queries list. -/
theorem Body.mem_dangling_of_fault? (hs : b.instructions.Consistent)
    (h : b.fault? = some (.danglingReference id)) :
    (∃ branch, (branch, id) ∈ b.instructions.danglingTargets)
      ∨ ∃ position boundary, (position, boundary, id) ∈ b.danglingBoundaries := by
  rw [fault?] at h
  split_ifs at h
  · simp at h
  rcases Option.or_eq_some_iff.1 h with hfault | ⟨-, hfault⟩
  · obtain ⟨branch, hbranch, hfault⟩ := List.exists_of_findSome?_eq_some hfault
    obtain ⟨c, hc, hfault⟩ := Option.bind_eq_some_iff.1 hfault
    obtain ⟨htarget, hno⟩ := target_of_operandFault? hfault
    rw [← Sequence.targetsOf_eq hc] at htarget
    exact .inl ⟨branch, hs.mem_danglingTargets.2 ⟨Array.mem_toList_iff.1 hbranch, htarget, hno⟩⟩
  · obtain ⟨handler, hhandler, hfault⟩ := List.exists_of_findSome?_eq_some hfault
    obtain ⟨missing, hmissing, heq⟩ := Option.map_eq_some_iff.1 hfault
    cases heq
    obtain ⟨hid, hno⟩ := Sequence.mem_of_missing? hmissing
    obtain ⟨boundary, hboundary⟩ := Handler.mem_clauseBoundaries.1 hid
    obtain ⟨position, hposition⟩ := List.mem_iff_getElem?.1 hhandler
    exact .inr ⟨position, boundary,
      (mem_danglingBoundaries hs).2 ⟨handler, hposition, hboundary, hno⟩⟩

/-- An encoding fails exactly for the first reason that the orders and sizes show. One that succeeds
leaves nothing dangling, and what a failed one calls dangling is listed as such. -/
theorem Image.encode_fault (hb : b.Reachable) (hsize : b.instructions.codeSize < 1 <<< 31)
    (hhandlers : b.handlers.size ≤ 699050) :
    (match b.fault? with
      | some e => (encode g strings b).1 = .error (.fault e)
      | none => ∃ image, (encode g strings b).1 = .ok image
        ∧ b.instructions.danglingTargets = [] ∧ b.danglingBoundaries = [])
    ∧ ∀ id, (encode g strings b).1 = .error (.fault (.danglingReference id)) →
      (∃ branch, (branch, id) ∈ b.instructions.danglingTargets)
        ∨ ∃ position boundary, (position, boundary, id) ∈ b.danglingBoundaries := by
  have hs := hb.instructions.consistent
  have hfault : faultOf (encode g strings b).1 = b.fault?.map .fault :=
    faultOf_encode hb hsize (tableSize_lt hhandlers)
  refine ⟨?_, fun id hid => Body.mem_dangling_of_fault? hs ?_⟩
  · cases h : b.fault? with
    | some e => exact eq_error_of_faultOf (by rw [hfault, h]; rfl)
    | none =>
      have hnone : faultOf (encode g strings b).1 = none := by rw [hfault, h]; rfl
      obtain ⟨image, himage⟩ := faultOf_eq_none hnone
      exact ⟨image, himage, Body.dangling_eq_nil hs h⟩
  · rw [hid] at hfault
    obtain ⟨e, he, heq⟩ := Option.map_eq_some_iff.1 hfault.symm
    rw [he, Failure.fault.inj heq]

/-- Two members name instructions that were never placed. The second in order has the lower handle
and is listed first, but the first in order is the one that is reported. -/
theorem Image.encode_fault_order :
    ∃ b : Body, b.Reachable ∧ b.instructions.codeSize < 1 <<< 31 ∧ b.handlers.size ≤ 699050
      ∧ b.instructions.danglingTargets = [(⟨0⟩, ⟨2⟩), (⟨1⟩, ⟨3⟩)]
      ∧ (encode .empty .empty b).1 = .error (.fault (.danglingReference ⟨3⟩)) := by
  obtain ⟨b, hb, hsize, hhandlers, hlist, hfault⟩ : ∃ b : Body, b.Reachable
      ∧ b.instructions.codeSize < 1 <<< 31 ∧ b.handlers.size ≤ 699050
      ∧ b.instructions.danglingTargets = [(⟨0⟩, ⟨2⟩), (⟨1⟩, ⟨3⟩)]
      ∧ b.fault? = some (.danglingReference ⟨3⟩) :=
    ⟨{ method := {}
       instructions := (Sequence.empty.runScript
        [.edit (.create ⟨"switch", 0x45, .inlineSwitch⟩ (.switch [⟨1⟩, ⟨2⟩])),
          .edit (.emit ⟨"br.s", 0x2b, .shortInlineBrTarget⟩ (.target ⟨3⟩)),
          .edit (.append ⟨0⟩), .edit (.create ⟨"nop", 0, .inlineNone⟩ .none),
          .edit (.create ⟨"nop", 0, .inlineNone⟩ .none)]).2
       handlers := #[⟨.finallyBlock, ⟨2⟩, none, ⟨1⟩, none⟩] },
      ⟨⟨_, rfl⟩, ⟨[], rfl⟩⟩, by decide +kernel, by decide +kernel, by decide +kernel,
      by decide +kernel⟩
  have h := (@encode_fault .empty .empty b hb hsize hhandlers).1
  rw [hfault] at h
  exact ⟨b, hb, hsize, hhandlers, hlist, h⟩

end Dangling

end CilMethod
