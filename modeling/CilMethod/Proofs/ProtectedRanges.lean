import CilMethod.Proofs.Decoder
import CilMethod.Proofs.Faults
import Mathlib.Data.List.Flatten

/-!
# What the handler section protects

The section of the handlers is read as it stands: the size in its header, and six words for each
clause (`Clause.read`). The code is cut into pieces, one for each member, so a boundary is the
length of the pieces before the member that it names, and a missing end the length of them all
(`exists_endsAt`). A region is then the pieces from one position up to another: its offset and its
length, which is taken as a difference and never below zero, cut out of the code exactly these
pieces, none if it ends where it starts or before (`covers_of_boundaries`). No offset is beyond the
code, so none is cut off when it is written in four bytes.

The size in the header is the size of the section up to the number of handlers that its three bytes
have room for. More handlers break the encoding off, until there are so many that the size starts
over at zero: then it fits again and is wrong (`header_eq`).
-/

namespace CilMethod

namespace Bytes

/-- The word of four bytes at a place, counted in words. -/
def wordAt (bytes : List UInt8) (place : Nat) : Nat := ofLittle ((bytes.drop (4 * place)).take 4)

theorem wordAt_zero {n : Nat} (h : n < limit 4) (rest : List UInt8) :
    wordAt (little 4 n ++ rest) 0 = n := by
  rw [wordAt, Nat.mul_zero, List.drop_zero, List.take_left' (length_little 4 n), ofLittle_little h]

theorem wordAt_succ (n : Nat) (rest : List UInt8) (place : Nat) :
    wordAt (little 4 n ++ rest) (place + 1) = wordAt rest place := by
  rw [wordAt, Nat.mul_succ, Nat.add_comm, ← List.drop_drop, List.drop_left' (length_little 4 n),
    wordAt]

end Bytes

/-- A clause of the section as it is read. -/
structure Clause where
  flags : Nat
  tryOffset : Nat
  tryLength : Nat
  handlerOffset : Nat
  handlerLength : Nat
  /-- A token or an offset, by the flags. -/
  extra : Nat
  deriving DecidableEq

namespace Clause

/-- The clause that bytes start with. -/
def read (bytes : List UInt8) : Clause where
  flags := Bytes.wordAt bytes 0
  tryOffset := Bytes.wordAt bytes 1
  tryLength := Bytes.wordAt bytes 2
  handlerOffset := Bytes.wordAt bytes 3
  handlerLength := Bytes.wordAt bytes 4
  extra := Bytes.wordAt bytes 5

def words (c : Clause) : List Nat :=
  [c.flags, c.tryOffset, c.tryLength, c.handlerOffset, c.handlerLength, c.extra]

theorem read_words {c : Clause} (h : ∀ n ∈ c.words, n < Bytes.limit 4) (rest : List UInt8) :
    read (c.words.flatMap (Bytes.little 4) ++ rest) = c := by
  simp only [words, List.forall_mem_cons] at h
  obtain ⟨hflags, htry, htryLength, hhandler, hhandlerLength, hextra, -⟩ := h
  simp only [words, List.flatMap_cons, List.flatMap_nil, List.append_assoc, read]
  rw [Bytes.wordAt_zero hflags]
  simp only [Bytes.wordAt_succ, Bytes.wordAt_zero, htry, htryLength, hhandler, hhandlerLength,
    hextra]

end Clause

namespace Image

section Pieces

variable {pieces : List (List UInt8)} {p q : Nat}

/-- Pieces between two positions, as many as are left, have the length that the lengths before the
positions show. -/
theorem length_flatten_between (pieces : List (List UInt8)) (p q : Nat) :
    ((pieces.drop p).take (q - p)).flatten.length =
      (pieces.take q).flatten.length - (pieces.take p).flatten.length := by
  rcases Nat.le_total p q with hpq | hqp
  · obtain ⟨n, rfl⟩ := Nat.exists_eq_add_of_le hpq
    rw [List.take_add, List.flatten_append, List.length_append, Nat.add_sub_cancel_left,
      Nat.add_sub_cancel_left]
  · obtain ⟨n, rfl⟩ := Nat.exists_eq_add_of_le hqp
    rw [Nat.sub_eq_zero_of_le hqp, List.take_zero, List.take_add, List.flatten_append,
      List.length_append]
    simp

theorem take_drop_flatten_between (pieces : List (List UInt8)) (p n : Nat) :
    (pieces.flatten.drop (pieces.take p).flatten.length).take
        ((pieces.drop p).take n).flatten.length =
      ((pieces.drop p).take n).flatten := by
  have hcut : pieces.flatten = (pieces.take p).flatten ++
      (((pieces.drop p).take n).flatten ++ ((pieces.drop p).drop n).flatten) := by
    rw [← List.flatten_append, List.take_append_drop, ← List.flatten_append,
      List.take_append_drop]
  rw [hcut, List.drop_left, List.take_left]

theorem drop_flatten_of_length {width : Nat} : ∀ {pieces : List (List UInt8)} (n : Nat),
    (∀ piece ∈ pieces, piece.length = width) →
    pieces.flatten.drop (width * n) = (pieces.drop n).flatten
  | [], _, _ => by simp
  | _ :: _, 0, _ => by simp
  | piece :: pieces, n + 1, h => by
    rw [List.forall_mem_cons] at h
    rw [List.flatten_cons, Nat.mul_succ, Nat.add_comm, ← List.drop_drop, List.drop_left' h.1,
      drop_flatten_of_length n h.2, List.drop_succ_cons]

theorem length_flatten_of_length {width : Nat} : ∀ {pieces : List (List UInt8)},
    (∀ piece ∈ pieces, piece.length = width) → pieces.flatten.length = width * pieces.length
  | [], _ => rfl
  | piece :: pieces, h => by
    rw [List.forall_mem_cons] at h
    rw [List.flatten_cons, List.length_append, h.1, length_flatten_of_length h.2, List.length_cons,
      Nat.mul_succ, Nat.add_comm]

end Pieces

/-- Where a region ends: before the instruction that is named, or behind the last. -/
def EndsAt (s : Sequence) : Option InstructionId → Nat → Prop
  | some id, position => s.get? position = some id
  | none, position => position = s.length

/-- In code that is cut into the pieces of the members, the bytes at `offset`, `length` of them, are
those of the members from `start` up to `stop`. -/
def Covers (s : Sequence) (pieces : List (List UInt8)) (start : InstructionId)
    (stop : Option InstructionId) (offset length : Nat) : Prop :=
  ∃ p q, s.get? p = some start ∧ EndsAt s stop q ∧ offset = (pieces.take p).flatten.length
    ∧ length = ((pieces.drop p).take (q - p)).flatten.length
    ∧ (pieces.flatten.drop offset).take length = ((pieces.drop p).take (q - p)).flatten
    ∧ (q ≤ p → length = 0)

/-- The last word of a clause, by the kind of the handler: the token of the type that is caught, the
offset at which the filter starts, or nothing. -/
def Qualifies (g : TypeGraph) (s : Sequence) (pieces : List (List UInt8)) : HandlerKind → Nat → Prop
  | .catchType type, extra => extra = (g.typeDef type).token.raw.toNat
  | .filterFrom start, extra =>
    ∃ p, s.get? p = some start ∧ extra = (pieces.take p).flatten.length
  | .finallyBlock, extra | .faultBlock, extra => extra = 0

/-- What a clause says about a handler. -/
structure Describes (g : TypeGraph) (s : Sequence) (pieces : List (List UInt8)) (h : Handler)
    (c : Clause) : Prop where
  flags : c.flags = h.kind.flags
  tries : Covers s pieces h.tryStart h.tryEnd c.tryOffset c.tryLength
  handles : Covers s pieces h.handlerStart h.handlerEnd c.handlerOffset c.handlerLength
  extra : Qualifies g s pieces h.kind c.extra

section Clauses

variable {g : TypeGraph} {s : Sequence} {pieces : List (List UInt8)} {codeSize : Nat}
  {h : Handler} {handlers : List Handler} {words : List Nat}

/-- The last word of a clause as it is written. -/
def extraWord (g : TypeGraph) (s : Sequence) (codeSize : Nat) : HandlerKind → Except Error Nat
  | .catchType type => .ok (g.typeDef type).token.raw.toNat
  | .filterFrom start => boundaryOffset s codeSize (some start)
  | .finallyBlock | .faultBlock => .ok 0

theorem clauseWords_eq (g : TypeGraph) (s : Sequence) (codeSize : Nat) (h : Handler) :
    clauseWords g s codeSize h = do
      let tryStart ← boundaryOffset s codeSize (some h.tryStart)
      let tryEnd ← boundaryOffset s codeSize h.tryEnd
      let handlerStart ← boundaryOffset s codeSize (some h.handlerStart)
      let handlerEnd ← boundaryOffset s codeSize h.handlerEnd
      let extra ← extraWord g s codeSize h.kind
      return [h.kind.flags, tryStart, tryEnd - tryStart, handlerStart, handlerEnd - handlerStart,
        extra] := by
  obtain ⟨kind, tryStart, tryEnd, handlerStart, handlerEnd⟩ := h
  cases kind <;> rfl

/-- The code of a sequence that is laid out, cut into the pieces of its members. -/
structure Cut (s : Sequence) (pieces : List (List UInt8)) (codeSize : Nat) : Prop where
  consistent : s.Consistent
  located : Located 0 s.members
  lengths : pieces.map List.length = s.members.map (·.2.size)
  size : codeSize = pieces.flatten.length
  lt : codeSize < Bytes.limit 4

variable (hcut : Cut s pieces codeSize)
include hcut

theorem Cut.take_le (p : Nat) : (pieces.take p).flatten.length ≤ codeSize := by
  rw [hcut.size]
  exact (List.take_sublist p pieces).flatten.length_le

/-- The offset of a boundary is the length of the pieces before it. -/
theorem Cut.exists_endsAt {boundary : Option InstructionId} {offset : Nat}
    (hoffset : boundaryOffset s codeSize boundary = .ok offset) :
    ∃ p, EndsAt s boundary p ∧ offset = (pieces.take p).flatten.length := by
  cases boundary with
  | none =>
    have hlength : pieces.length = s.length := by
      have hsizes := congrArg List.length (hcut.lengths.trans hcut.consistent.map_size_members)
      simpa [Sequence.length] using hsizes
    refine ⟨s.length, rfl, ?_⟩
    rw [← hlength, List.take_length, ← hcut.size]
    exact (Except.ok.inj hoffset).symm
  | some id =>
    rw [boundaryOffset] at hoffset
    split_ifs at hoffset with hmember
    obtain ⟨p, hp⟩ := Sequence.mem_order_iff.1 (hcut.consistent.contains_iff.1 hmember)
    obtain ⟨i, hi⟩ := hcut.consistent.exists_node (Sequence.mem_order_iff.2 ⟨p, hp⟩)
    have hm : s.members[p]? = some (id, i) := by
      rw [hcut.consistent.getElem?_members, hp, Option.bind_some, hi]
      rfl
    refine ⟨p, hp, ?_⟩
    calc offset = i.offset := by
          rw [← Except.ok.inj hoffset, Sequence.offsetOf, hi]
          rfl
      _ = Offset.total ((s.members.map (·.2.size)).take p) := by
          rw [hcut.located p _ hm, Nat.zero_add]
      _ = (pieces.take p).flatten.length := by
          rw [length_flatten_eq, List.map_take, hcut.lengths]

theorem Cut.covers_of_boundaries {start : InstructionId} {stop : Option InstructionId}
    {first last : Nat} (hfirst : boundaryOffset s codeSize (some start) = .ok first)
    (hlast : boundaryOffset s codeSize stop = .ok last) :
    Covers s pieces start stop first (last - first) := by
  obtain ⟨p, hp, rfl⟩ := hcut.exists_endsAt hfirst
  obtain ⟨q, hq, rfl⟩ := hcut.exists_endsAt hlast
  rw [← length_flatten_between]
  refine ⟨p, q, hp, hq, rfl, rfl, take_drop_flatten_between pieces p (q - p), fun hqp => ?_⟩
  rw [Nat.sub_eq_zero_of_le hqp]
  rfl

theorem Cut.offset_lt {boundary : Option InstructionId} {offset : Nat}
    (hoffset : boundaryOffset s codeSize boundary = .ok offset) : offset < Bytes.limit 4 := by
  obtain ⟨p, -, rfl⟩ := hcut.exists_endsAt hoffset
  exact Nat.lt_of_le_of_lt (hcut.take_le p) hcut.lt

theorem Cut.qualifies {kind : HandlerKind} {extra : Nat}
    (hextra : extraWord g s codeSize kind = .ok extra) :
    Qualifies g s pieces kind extra ∧ extra < Bytes.limit 4 := by
  cases kind with
  | catchType type =>
    obtain rfl := Except.ok.inj hextra
    exact ⟨rfl, UInt32.toNat_lt _⟩
  | filterFrom start =>
    have hstart : boundaryOffset s codeSize (some start) = .ok extra := hextra
    exact ⟨hcut.exists_endsAt hstart, hcut.offset_lt hstart⟩
  | finallyBlock | faultBlock =>
    obtain rfl := Except.ok.inj hextra
    exact ⟨rfl, by decide⟩

/-- The words of a clause describe its handler, and each of them fits. -/
theorem Cut.exists_clause (hwords : clauseWords g s codeSize h = .ok words) :
    ∃ c : Clause, words = c.words ∧ Describes g s pieces h c
      ∧ ∀ n ∈ c.words, n < Bytes.limit 4 := by
  simp only [clauseWords_eq, bind_eq_ok_iff] at hwords
  obtain ⟨tryStart, htryStart, tryEnd, htryEnd, handlerStart, hhandlerStart, handlerEnd,
    hhandlerEnd, extra, hextra, heq⟩ := hwords
  obtain ⟨hqualifies, hextraLt⟩ := hcut.qualifies hextra
  refine ⟨⟨h.kind.flags, tryStart, tryEnd - tryStart, handlerStart, handlerEnd - handlerStart,
    extra⟩, (Except.ok.inj heq).symm, ⟨rfl, hcut.covers_of_boundaries htryStart htryEnd,
    hcut.covers_of_boundaries hhandlerStart hhandlerEnd, hqualifies⟩, ?_⟩
  have hflags : h.kind.flags < Bytes.limit 4 := by
    cases h.kind <;> simp [HandlerKind.flags, Bytes.limit]
  have htry := hcut.offset_lt htryEnd
  have hhandler := hcut.offset_lt hhandlerEnd
  simp only [Clause.words, List.forall_mem_cons, List.not_mem_nil, false_implies, implies_true,
    and_true]
  exact ⟨hflags, hcut.offset_lt htryStart, by omega, hcut.offset_lt hhandlerStart, by omega,
    hextraLt⟩

omit hcut in
theorem clauseBytes_eq_ok {bytes : List UInt8} (hbytes : clauseBytes g s codeSize h = .ok bytes) :
    ∃ words, clauseWords g s codeSize h = .ok words ∧ bytes = words.flatMap (Bytes.little 4) := by
  obtain ⟨words, hwords, heq⟩ := bind_eq_ok_iff.1 hbytes
  exact ⟨words, hwords, (Except.ok.inj heq).symm⟩

omit hcut in
/-- A section that is not empty has a header of four bytes and then its clauses. -/
theorem handlerTable_eq_ok {bytes : Array UInt8} (hhandlers : handlers ≠ [])
    (hbytes : handlerTable g s codeSize handlers = .ok bytes) :
    (tableSize handlers.length).toNat < Bytes.limit 3 ∧ ∃ clauses : List (List UInt8),
      List.Forall₂ (fun h c => clauseBytes g s codeSize h = .ok c) handlers clauses
        ∧ bytes.toList =
          fatTable :: Bytes.little 3 (tableSize handlers.length).toNat ++ clauses.flatten := by
  rw [handlerTable, if_neg (by simpa using hhandlers)] at hbytes
  split_ifs at hbytes with hsize
  obtain ⟨clauses, hclauses, heq⟩ := bind_eq_ok_iff.1 hbytes
  refine ⟨Nat.lt_of_not_le hsize, clauses, mapM_eq_ok_iff.1 (mapError_eq_ok_iff.1 hclauses), ?_⟩
  rw [← Except.ok.inj heq]

theorem Cut.length_clause {clauses : List (List UInt8)}
    (hclauses : List.Forall₂ (fun h c => clauseBytes g s codeSize h = .ok c) handlers clauses) :
    ∀ bytes ∈ clauses, bytes.length = 24 := by
  intro bytes hbytes
  obtain ⟨n, hn⟩ := List.mem_iff_getElem?.1 hbytes
  obtain ⟨h, -, hh⟩ := exists_of_forall₂ hclauses.flip hn
  obtain ⟨words, hwords, rfl⟩ := clauseBytes_eq_ok hh
  obtain ⟨c, rfl, -⟩ := hcut.exists_clause hwords
  simp [Clause.words]

/-- The header tells what follows, and the size of it all as a 32-bit number. -/
theorem Cut.header_eq {bytes : Array UInt8} (hhandlers : handlers ≠ [])
    (hbytes : handlerTable g s codeSize handlers = .ok bytes) :
    bytes.size = 4 + 24 * handlers.length ∧ bytes[0]? = some 0x41
      ∧ Bytes.ofLittle ((bytes.toList.drop 1).take 3) = bytes.size % Bytes.limit 4
      ∧ bytes.size % Bytes.limit 4 < Bytes.limit 3 := by
  obtain ⟨hfits, clauses, hclauses, hlist⟩ := handlerTable_eq_ok hhandlers hbytes
  have hsize : bytes.size = 4 + 24 * handlers.length := by
    rw [← Array.length_toList, hlist, List.length_append, List.length_cons, Bytes.length_little,
      length_flatten_of_length (hcut.length_clause hclauses), hclauses.length_eq]
  have hword : (tableSize handlers.length).toNat = bytes.size % Bytes.limit 4 := by
    rw [toNat_tableSize, hsize]
  refine ⟨hsize, ?_, ?_, hword ▸ hfits⟩
  · rw [← Array.getElem?_toList, hlist]
    rfl
  · rw [hlist, List.cons_append, List.drop_one, List.tail_cons,
      List.take_left' (Bytes.length_little 3 _), Bytes.ofLittle_little hfits, hword]

/-- Each clause is read back from its place behind the header. -/
theorem Cut.describes_read {bytes : Array UInt8} {k : Nat}
    (hbytes : handlerTable g s codeSize handlers = .ok bytes) (hk : handlers[k]? = some h) :
    Describes g s pieces h (Clause.read (bytes.toList.drop (4 + 24 * k))) := by
  obtain ⟨-, clauses, hclauses, hlist⟩ :=
    handlerTable_eq_ok (List.ne_nil_of_mem (List.mem_of_getElem? hk)) hbytes
  obtain ⟨clause, hclause, hwritten⟩ := exists_of_forall₂ hclauses hk
  obtain ⟨words, hwords, rfl⟩ := clauseBytes_eq_ok hwritten
  obtain ⟨c, rfl, hdescribes, hfits⟩ := hcut.exists_clause hwords
  obtain ⟨hlt, hget⟩ := List.getElem?_eq_some_iff.1 hclause
  have hrest : bytes.toList.drop (4 + 24 * k) =
      c.words.flatMap (Bytes.little 4) ++ (clauses.drop (k + 1)).flatten := by
    rw [hlist, ← List.drop_drop, List.drop_left' (by simp),
      drop_flatten_of_length k (hcut.length_clause hclauses), List.drop_eq_getElem_cons hlt, hget,
      List.flatten_cons]
  rw [hrest, Clause.read_words hfits]
  exact hdescribes

end Clauses

section Encode

variable {g : TypeGraph} {strings strings' : UserStrings} {b b' : Body} {image : Image}

theorem exists_cut (hb : b.Reachable) (h : encode g strings b = (.ok image, strings', b')) :
    ∃ pieces, List.Forall₂ (Written strings' b'.instructions b'.locals) b'.instructions.members
        pieces
      ∧ image.sections.code.toList = pieces.flatten
      ∧ Cut b'.instructions pieces b'.codeSize := by
  have hs := hb.instructions.consistent
  obtain ⟨rfl, hsize, hlt, pieces, hpieces, hcode⟩ := encode_eq_ok h
  have hlengths := map_length_pieces hpieces hs.laidOut.fits_members
  refine ⟨pieces, hpieces, hcode, hs.laidOut, hs.located, hlengths, ?_, hsize ▸ hlt⟩
  rw [length_flatten_eq, hlengths]
  exact hs.codeSize_laidOut.symm

theorem handlerTable_encode (h : encode g strings b = (.ok image, strings', b')) :
    handlerTable g b'.instructions b'.codeSize b.handlers.toList =
      .ok image.sections.handlers := by
  obtain ⟨hbody, -, code, -, hfinish⟩ := exists_finish h
  obtain ⟨-, -, htable, -⟩ := finish_eq_ok hfinish
  have hhandlers : b'.handlers = b.handlers := by rw [hbody]
  rwa [hhandlers] at htable

/-- The section of a body with handlers starts with its kind and its size. The size is right as long
as it fits into three bytes. -/
theorem header_encode (hb : b.Reachable) (h : encode g strings b = (.ok image, strings', b'))
    (hpos : 0 < b.handlers.size) :
    image.sections.handlers.size = 4 + 24 * b.handlers.size
      ∧ image.sections.handlers[0]? = some 0x41
      ∧ Bytes.ofLittle ((image.sections.handlers.toList.drop 1).take 3) =
        image.sections.handlers.size % Bytes.limit 4
      ∧ (Bytes.ofLittle ((image.sections.handlers.toList.drop 1).take 3) =
        image.sections.handlers.size ↔ b.handlers.size ≤ 699050) := by
  obtain ⟨pieces, -, -, hcut⟩ := exists_cut hb h
  have hne : b.handlers.toList ≠ [] := by
    rw [← List.length_pos_iff, Array.length_toList]
    exact hpos
  obtain ⟨hsize, hkind, hfield, hfits⟩ := hcut.header_eq hne (handlerTable_encode h)
  rw [Array.length_toList] at hsize
  refine ⟨hsize, hkind, hfield, ?_⟩
  rw [Bytes.limit_three, Bytes.limit_four] at hfits
  rw [hfield, Bytes.limit_four]
  constructor
  · intro hequal
    omega
  · intro hfew
    exact Nat.mod_eq_of_lt (by omega)

/-- The handler section of an encoding says for each handler, in order, which bytes of the code its
regions are: those of the members from where a region starts to where it ends. The size in its
header starts over at `2 ^ 32`, and is the size of the section exactly if that fits. -/
theorem encode_handlers_eq (hb : b.Reachable)
    (h : encode g strings b = (.ok image, strings', b')) :
    (b.handlers.size = 0 → image.sections.handlers = #[])
    ∧ (0 < b.handlers.size → image.sections.handlers.size = 4 + 24 * b.handlers.size
      ∧ image.sections.handlers[0]? = some 0x41
      ∧ Bytes.ofLittle ((image.sections.handlers.toList.drop 1).take 3) =
        image.sections.handlers.size % Bytes.limit 4
      ∧ (Bytes.ofLittle ((image.sections.handlers.toList.drop 1).take 3) =
        image.sections.handlers.size ↔ b.handlers.size ≤ 699050))
    ∧ ∃ pieces, List.Forall₂ (Written strings' b'.instructions b'.locals) b'.instructions.members
        pieces
      ∧ image.sections.code.toList = pieces.flatten
      ∧ ∀ k handler, b.handlers[k]? = some handler →
        Describes g b'.instructions pieces handler
          (Clause.read (image.sections.handlers.toList.drop (4 + 24 * k))) := by
  obtain ⟨pieces, hpieces, hcode, hcut⟩ := exists_cut hb h
  have htable := handlerTable_encode h
  refine ⟨fun hzero => ?_, header_encode hb h, pieces, hpieces, hcode, fun k handler hk => ?_⟩
  · rw [Array.eq_empty_of_size_eq_zero hzero] at htable
    exact (Except.ok.inj htable).symm
  · exact hcut.describes_read htable (by rwa [Array.getElem?_toList])

/-- The second of two handlers has a region that ends before it starts, a filter, and a handler
without an end. -/
theorem encode_handlers_eq_reversed :
    ∃ (b b' : Body) (image : Image) (strings' : UserStrings) (pieces : List (List UInt8)),
      b.Reachable ∧ encode .empty .empty b = (.ok image, strings', b')
      ∧ image.sections.handlers.size = 52
      ∧ Bytes.ofLittle ((image.sections.handlers.toList.drop 1).take 3) = 52
      ∧ image.sections.code.toList = pieces.flatten
      ∧ Clause.read (image.sections.handlers.toList.drop 4) = ⟨2, 0, 6, 6, 1, 0⟩
      ∧ Covers b'.instructions pieces ⟨0⟩ (some ⟨2⟩) 0 6
      ∧ Clause.read (image.sections.handlers.toList.drop 28) = ⟨1, 6, 0, 1, 6, 1⟩
      ∧ Covers b'.instructions pieces ⟨2⟩ (some ⟨0⟩) 6 0
      ∧ Covers b'.instructions pieces ⟨1⟩ none 1 6 := by
  obtain ⟨b, b', image, strings', hb, hencode, hsize, hfirst, hsecond, hclause, hclause'⟩ :
      ∃ (b b' : Body) (image : Image) (strings' : UserStrings), b.Reachable
        ∧ encode .empty .empty b = (.ok image, strings', b') ∧ b.handlers.size = 2
        ∧ b.handlers[0]? = some ⟨.finallyBlock, ⟨0⟩, some ⟨2⟩, ⟨2⟩, none⟩
        ∧ b.handlers[1]? = some ⟨.filterFrom ⟨1⟩, ⟨2⟩, some ⟨0⟩, ⟨1⟩, none⟩
        ∧ Clause.read (image.sections.handlers.toList.drop 4) = ⟨2, 0, 6, 6, 1, 0⟩
        ∧ Clause.read (image.sections.handlers.toList.drop 28) = ⟨1, 6, 0, 1, 6, 1⟩ :=
    ⟨{ method := {}
       instructions := (Sequence.empty.runScript
        [.edit (.emit ⟨"nop", 0, .inlineNone⟩ .none),
          .edit (.emit ⟨"ldc.i4", 0x20, .inlineI⟩ (.int32 0)),
          .edit (.emit ⟨"endfinally", 0xdc, .inlineNone⟩ .none)]).2
       handlers := #[⟨.finallyBlock, ⟨0⟩, some ⟨2⟩, ⟨2⟩, none⟩,
        ⟨.filterFrom ⟨1⟩, ⟨2⟩, some ⟨0⟩, ⟨1⟩, none⟩] },
      _, _, _, ⟨⟨_, rfl⟩, ⟨[], rfl⟩⟩, rfl, rfl, rfl, rfl, by decide +kernel, by decide +kernel⟩
  obtain ⟨-, hheader, pieces, -, hcode, hdescribes⟩ := encode_handlers_eq hb hencode
  obtain ⟨hlength, -, -, hread⟩ := hheader (by rw [hsize]; decide)
  have hread := hread.2 (by rw [hsize]; decide)
  rw [hsize] at hlength
  rw [hlength] at hread
  have htries := (hdescribes 0 _ hfirst).tries
  have hregions := hdescribes 1 _ hsecond
  rw [hclause] at htries
  rw [hclause'] at hregions
  exact ⟨b, b', image, strings', pieces, hb, hencode, hlength, hread, hcode, hclause, htries,
    hclause', hregions.tries, hregions.handles⟩

/-- A single instruction, protected any number of times by itself. -/
def protectedNop (count : Nat) : Body where
  method := {}
  instructions := (Sequence.empty.runScript [.edit (.emit ⟨"nop", 0, .inlineNone⟩ .none)]).2
  handlers := Array.replicate count ⟨.finallyBlock, ⟨0⟩, none, ⟨0⟩, none⟩

/-- Nothing is wrong with it, so that only the size of the section can stop an encoding. -/
theorem exists_encode_protectedNop {count : Nat}
    (hfits : (tableSize count).toNat < Bytes.limit 3) :
    (protectedNop count).Reachable ∧ ∃ image strings' b',
      encode .empty .empty (protectedNop count) = (.ok image, strings', b') := by
  have hb : (protectedNop count).Reachable := ⟨⟨_, rfl⟩, ⟨[], rfl⟩⟩
  have hsuppressed : ¬ (protectedNop count).instructions.suppressed = true := Bool.false_ne_true
  have hsize : (protectedNop count).instructions.codeSize = 1 := rfl
  have hmembers : (protectedNop count).instructions.order.toList.findSome?
      (protectedNop count).memberFault? = none := rfl
  have hhandlers : (protectedNop count).handlers.toList.findSome?
      (protectedNop count).handlerFault? = none := by
    rw [protectedNop, Array.toList_replicate, List.findSome?_replicate]
    split_ifs <;> rfl
  have hfault : (protectedNop count).fault? = none := by
    rw [Body.fault?, if_neg hsuppressed, hmembers, hhandlers]
    rfl
  have hcount : (protectedNop count).handlers.size = count := Array.size_replicate
  have hencode : faultOf (encode .empty .empty (protectedNop count)).1 = none := by
    rw [faultOf_encode hb (hsize.symm ▸ by decide) (hcount.symm ▸ hfits), hfault]
    rfl
  obtain ⟨image, himage⟩ := faultOf_eq_none hencode
  exact ⟨hb, image, _, _, Prod.ext himage rfl⟩

/-- So many handlers that the size of their section starts over: the header says twelve bytes. -/
theorem encode_handlers_wrap :
    ∃ (b b' : Body) (image : Image) (strings' : UserStrings), b.Reachable
      ∧ encode .empty .empty b = (.ok image, strings', b') ∧ b.handlers.size = 178956971
      ∧ image.sections.handlers.size = 4294967308
      ∧ Bytes.ofLittle ((image.sections.handlers.toList.drop 1).take 3) = 12 := by
  obtain ⟨count, hcount⟩ : ∃ count : Nat, count = 178956971 := ⟨_, rfl⟩
  have hfits : (tableSize count).toNat < Bytes.limit 3 := by
    rw [toNat_tableSize, hcount]
    decide
  obtain ⟨hb, image, strings', b', hencode⟩ := exists_encode_protectedNop hfits
  have hhandlers : (protectedNop count).handlers.size = 178956971 :=
    Array.size_replicate.trans hcount
  obtain ⟨hsize, -, hfield, -⟩ := header_encode hb hencode (hhandlers.symm ▸ by decide)
  rw [hhandlers] at hsize
  rw [hsize] at hfield
  exact ⟨_, b', image, strings', hb, hencode, hhandlers, hsize, hfield⟩

end Encode

end Image

end CilMethod
