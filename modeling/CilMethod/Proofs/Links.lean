import CilMethod.Sequence.Basic

/-!
# What the updates of a sequence do to each instruction

Edits are made of a few updates of the instructions: setting a link, marking and unmarking a member.
Each leaves the order and the suppression flag alone, and what it makes of the instruction with a
handle depends on that instruction and its handle only. Putting an instruction between two
neighbours is `place`, and taking one out from between them is `takeOut`.
-/

namespace CilMethod.Sequence

variable (s : Sequence) (id k : InstructionId) (previous next : Option InstructionId)

@[ext]
theorem ext_node? {s t : Sequence} (hsize : s.nodes.size = t.nodes.size)
    (hnode : ∀ id, s.node? id = t.node? id) (horder : s.order = t.order)
    (hbranches : ∀ id, id ∈ s.branches ↔ id ∈ t.branches)
    (hsuppressed : s.suppressed = t.suppressed) : s = t := by
  have hn : s.nodes = t.nodes := by
    refine Array.ext hsize fun n hs ht => ?_
    have := hnode ⟨n⟩
    simpa [node?, hs, ht] using this
  have hb : s.branches = t.branches := Std.ExtTreeSet.ext_mem fun {k} => hbranches k
  cases s
  cases t
  simp_all

theorem node?_eq_none_iff : s.node? id = none ↔ s.nodes.size ≤ id.index := by
  simp [node?]

theorem node?_push (i : Instruction) :
    ({ s with nodes := s.nodes.push i } : Sequence).node? k =
      if k.index = s.nodes.size then some i else s.node? k := by
  simp only [node?, Array.getElem?_push]

@[simp]
theorem node?_with_order (order : Array InstructionId) :
    ({ s with order } : Sequence).node? k = s.node? k := rfl

section Modify

variable (f : Instruction → Instruction)

theorem node?_modifyNode :
    (s.modifyNode id f).node? k = (s.node? k).map fun i => if k = id then f i else i := by
  obtain ⟨n⟩ := id
  obtain ⟨m⟩ := k
  simp only [node?, modifyNode, Array.getElem?_modify, InstructionId.mk.injEq]
  by_cases h : n = m
  · simp [h]
  · simp [h, Ne.symm h]

@[simp]
theorem size_modifyNode : (s.modifyNode id f).nodes.size = s.nodes.size := by
  simp [modifyNode]

@[simp]
theorem order_modifyNode : (s.modifyNode id f).order = s.order := rfl

@[simp]
theorem branches_modifyNode : (s.modifyNode id f).branches = s.branches := rfl

@[simp]
theorem suppressed_modifyNode : (s.modifyNode id f).suppressed = s.suppressed := rfl

end Modify

section Link

variable (at? value : Option InstructionId)

theorem node?_setNext :
    (s.setNext at? value).node? k =
      (s.node? k).map fun i => { i with next := if at? = some k then value else i.next } := by
  cases at? with
  | none => simp [setNext]
  | some n =>
    simp only [setNext, node?_modifyNode, Option.some.injEq]
    congr 1
    funext i
    by_cases h : n = k
    · simp [h]
    · simp [h, Ne.symm h]

theorem node?_setPrevious :
    (s.setPrevious at? value).node? k =
      (s.node? k).map fun i =>
        { i with previous := if at? = some k then value else i.previous } := by
  cases at? with
  | none => simp [setPrevious]
  | some n =>
    simp only [setPrevious, node?_modifyNode, Option.some.injEq]
    congr 1
    funext i
    by_cases h : n = k
    · simp [h]
    · simp [h, Ne.symm h]

@[simp]
theorem setNext_frame :
    (s.setNext at? value).nodes.size = s.nodes.size ∧ (s.setNext at? value).order = s.order
      ∧ (s.setNext at? value).branches = s.branches
      ∧ (s.setNext at? value).suppressed = s.suppressed := by
  cases at? <;> simp [setNext]

@[simp]
theorem setPrevious_frame :
    (s.setPrevious at? value).nodes.size = s.nodes.size
      ∧ (s.setPrevious at? value).order = s.order
      ∧ (s.setPrevious at? value).branches = s.branches
      ∧ (s.setPrevious at? value).suppressed = s.suppressed := by
  cases at? <;> simp [setPrevious]

@[simp]
theorem order_link : (s.link previous id next).order = s.order := by
  simp [link]

end Link

section Membership

theorem node?_indexBranch : (s.indexBranch id).node? k = s.node? k := by
  unfold indexBranch
  split <;> rfl

@[simp]
theorem indexBranch_frame :
    (s.indexBranch id).nodes = s.nodes ∧ (s.indexBranch id).order = s.order
      ∧ (s.indexBranch id).suppressed = s.suppressed := by
  unfold indexBranch
  split <;> simp

/-- An instruction is listed as a branch by its opcode alone; the listing of the others stays. -/
theorem mem_indexBranch {i : Instruction} (h : s.node? id = some i) :
    k ∈ (s.indexBranch id).branches ↔
      if k = id then i.isTargetBearing = true else k ∈ s.branches := by
  simp only [indexBranch, h]
  by_cases hk : k = id
  · by_cases hi : i.isTargetBearing = true <;> simp [hk, hi]
  · by_cases hi : i.isTargetBearing = true <;> simp [hk, hi, Ne.symm hk]

theorem node?_attach :
    (s.attach id).node? k =
      (s.node? k).map fun i => if k = id then { i with isMember := true } else i := by
  rw [← node?_modifyNode, attach]
  split <;> rfl

@[simp]
theorem attach_frame :
    (s.attach id).nodes.size = s.nodes.size ∧ (s.attach id).order = s.order
      ∧ (s.attach id).suppressed = s.suppressed := by
  unfold attach
  dsimp only
  split <;> simp

/-- Attaching lists an instruction or leaves the list alone. -/
theorem mem_attach {i : Instruction} (h : s.node? id = some i) :
    k ∈ (s.attach id).branches ↔ k = id ∧ i.isTargetBearing = true ∨ k ∈ s.branches := by
  have hi : ((s.modifyNode id fun i => { i with isMember := true }).node? id).any
      (·.isTargetBearing) = i.isTargetBearing := by
    rw [node?_modifyNode, h, Option.map_some, if_pos rfl, Option.any_some]
    rfl
  rw [attach, hi]
  by_cases hk : k = id
  · by_cases hb : i.isTargetBearing = true <;> simp [hb, hk]
  · by_cases hb : i.isTargetBearing = true <;> simp [hb, hk, Ne.symm hk]

theorem node?_detach :
    (s.detach id).node? k = (s.node? k).map fun i =>
      { i with
        previous := if k = id then none else i.previous
        next := if k = id then none else i.next
        isMember := if k = id then false else i.isMember } := by
  simp only [show (s.detach id).node? k = _ from node?_modifyNode ..]
  congr 1
  funext i
  by_cases h : k = id <;> simp [h]

theorem mem_detach : k ∈ (s.detach id).branches ↔ k ≠ id ∧ k ∈ s.branches := by
  by_cases h : k = id
  · simp [detach, h]
  · simp [detach, h, Ne.symm h]

@[simp]
theorem detach_frame :
    (s.detach id).nodes.size = s.nodes.size ∧ (s.detach id).order = s.order
      ∧ (s.detach id).suppressed = s.suppressed := by
  simp [detach]

end Membership

/-- The sequence with `id` put between two neighbours, in a new order. -/
def place (order : Array InstructionId) : Sequence :=
  { s.link previous id next with order }.attach id

/-- The sequence with `id` taken out from between two neighbours. -/
def takeOut : Sequence :=
  ((s.setNext previous next).setPrevious next previous).detach id

section Place

variable (order : Array InstructionId)

theorem node?_place :
    (s.place id previous next order).node? k = (s.node? k).map fun i =>
      { i with
        previous := if k = id then previous else if next = some k then some id else i.previous
        next := if k = id then next else if previous = some k then some id else i.next
        isMember := if k = id then true else i.isMember } := by
  simp only [place, node?_attach, link, node?_modifyNode, node?_with_order, node?_setPrevious,
    node?_setNext, Option.map_map]
  congr 1
  funext i
  by_cases h : k = id <;> simp [h]

@[simp]
theorem place_frame :
    (s.place id previous next order).nodes.size = s.nodes.size
      ∧ (s.place id previous next order).order = order
      ∧ (s.place id previous next order).suppressed = s.suppressed := by
  simp [place, link]

theorem mem_place {i : Instruction} (h : s.node? id = some i) :
    k ∈ (s.place id previous next order).branches ↔
      k = id ∧ i.isTargetBearing = true ∨ k ∈ s.branches := by
  rw [place, mem_attach (h := by
    simp only [node?_modifyNode, node?_with_order, link, node?_setPrevious, node?_setNext, h]
    rfl)]
  simp [link, Instruction.isTargetBearing]

/-- The order before is forgotten. -/
theorem place_with_order (order' : Array InstructionId) :
    ({ s with order := order' } : Sequence).place id previous next order =
      s.place id previous next order := by
  cases previous <;> cases next <;> rfl

theorem node?_takeOut :
    (s.takeOut id previous next).node? k = (s.node? k).map fun i =>
      { i with
        previous := if k = id then none else if next = some k then previous else i.previous
        next := if k = id then none else if previous = some k then next else i.next
        isMember := if k = id then false else i.isMember } := by
  simp only [takeOut, node?_detach, node?_setPrevious, node?_setNext, Option.map_map]
  rfl

@[simp]
theorem takeOut_frame :
    (s.takeOut id previous next).nodes.size = s.nodes.size
      ∧ (s.takeOut id previous next).order = s.order
      ∧ (s.takeOut id previous next).suppressed = s.suppressed := by
  simp [takeOut]

theorem mem_takeOut :
    k ∈ (s.takeOut id previous next).branches ↔ k ≠ id ∧ k ∈ s.branches := by
  simp [takeOut, mem_detach]

/-- What takes the place of an instruction that is unlinked is linked as if the instruction had been
taken out before. -/
theorem place_detach {i : Instruction} (h : s.node? id = some i) (old : InstructionId) :
    (s.detach old).place id previous next order =
      (s.takeOut old previous next).place id previous next order := by
  apply ext_node?
  · simp
  · intro k
    rw [node?_place, node?_place, node?_detach, node?_takeOut, Option.map_map, Option.map_map]
    congr 1
    funext j
    by_cases hk : k = id
    · simp [hk]
    · by_cases hnext : next = some k <;> by_cases hprev : previous = some k <;>
        simp [hk, hnext, hprev]
  · simp
  · intro k
    rw [mem_place (h := by rw [node?_detach, h]; rfl),
      mem_place (h := by rw [node?_takeOut, h]; rfl), mem_detach, mem_takeOut]
    rfl
  · simp

end Place

end CilMethod.Sequence
