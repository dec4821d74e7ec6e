import CilMethod.Listing.Reader
import CilMethod.Proofs.CodeStream
import Mathlib.Data.List.TakeWhile

/-!
# Cutting text

A text is cut at single characters (`pieces`), and everything else is put on top of that: its lines,
words and entries are pieces that are trimmed or left out. What is joined with a separator that its
parts do not hold is cut into the same parts again (`pieces_append`), which gives `words_flatMap`,
`entries_intercalate` and `lines_flatMap`.

A text is left alone by the reader of comments if no comment starts in it (`Uncut`). Whether one
does depends on the quotes before it, so a part of an uncut text is uncut only if no quote stands
before the part (`Uncut.right`).
-/

namespace CilMethod.Text

section Plain

variable {c d : Char} {cs : List Char}

/-- The characters of labels, mnemonics and numbers. -/
def isPlain (c : Char) : Bool := c.isAlphanum || c == '_' || c == '-' || c == '.'

theorem isBlank_of_isPlain (h : isPlain c = true) : isBlank c = false := by
  simp only [isPlain, Bool.or_eq_true, beq_iff_eq] at h
  rcases h with ((h | rfl) | rfl) | rfl
  · have hrange : (48 ≤ c.toNat ∧ c.toNat ≤ 57) ∨ (65 ≤ c.toNat ∧ c.toNat ≤ 90)
        ∨ (97 ≤ c.toNat ∧ c.toNat ≤ 122) := by
      change (decide (c.val ≥ 'A'.val ∧ c.val ≤ 'Z'.val) || (c.val ≥ 'a'.val && c.val ≤ 'z'.val)
        || c.val ≥ '0'.val && c.val ≤ '9'.val) = true at h
      simp only [Bool.or_eq_true, Bool.and_eq_true, decide_eq_true_eq, ge_iff_le,
        UInt32.le_iff_toNat_le] at h
      change (((65 ≤ c.toNat ∧ c.toNat ≤ 90) ∨ (97 ≤ c.toNat ∧ c.toNat ≤ 122))
        ∨ (48 ≤ c.toNat ∧ c.toNat ≤ 57)) at h
      omega
    simp only [isBlank, blankRanges, List.any_cons, List.any_nil, Bool.or_eq_false_iff,
      Bool.and_eq_false_iff, decide_eq_false_iff_not, and_true]
    omega
  all_goals decide

theorem notMem_of_isPlain (h : ∀ c ∈ cs, isPlain c = true) (hd : isPlain d = false) : d ∉ cs := by
  intro hmem
  rw [h d hmem] at hd
  cases hd

end Plain

section Trim

variable {cs bs : List Char} {b c : Char}

theorem trim_eq_self (hhead : ∀ c, cs.head? = some c → isBlank c = false)
    (hlast : ∀ c, cs.getLast? = some c → isBlank c = false) : trim cs = cs := by
  have hdrop : ∀ {xs : List Char}, (∀ c, xs.head? = some c → isBlank c = false) →
      xs.dropWhile isBlank = xs := by
    rintro (_ | ⟨x, xs⟩) h
    · rfl
    · rw [List.dropWhile_cons, h x rfl, if_neg Bool.false_ne_true]
  rw [trim, dropEndWhile, hdrop hhead, hdrop (by simpa using hlast), List.reverse_reverse]

theorem trim_of_forall_not (h : ∀ c ∈ cs, isBlank c = false) : trim cs = cs :=
  trim_eq_self (fun c hc => h c (List.mem_of_head? hc)) fun c hc => h c (List.mem_of_getLast? hc)

theorem trim_blanks_append (h : ∀ c ∈ bs, isBlank c = true) : trim (bs ++ cs) = trim cs := by
  rw [trim, List.dropWhile_append_of_pos h, ← trim]

theorem trim_append_blank (h : isBlank b = true) : trim (cs ++ [b]) = trim cs := by
  rw [trim, trim, List.dropWhile_append]
  split_ifs with hempty
  · rw [List.isEmpty_iff.1 hempty, List.dropWhile_cons, if_pos h]
    rfl
  · simp [dropEndWhile, h]

/-- Trimming drops blanks only. -/
theorem exists_trim (cs : List Char) : ∃ pre post, cs = pre ++ (trim cs ++ post)
    ∧ (∀ c ∈ pre, isBlank c = true) ∧ ∀ c ∈ post, isBlank c = true := by
  refine ⟨cs.takeWhile isBlank, ((cs.dropWhile isBlank).reverse.takeWhile isBlank).reverse, ?_,
    fun c hc => List.mem_takeWhile_imp hc, fun c hc => List.mem_takeWhile_imp (by simpa using hc)⟩
  rw [trim, dropEndWhile, ← List.reverse_append, List.takeWhile_append_dropWhile,
    List.reverse_reverse, List.takeWhile_append_dropWhile]

theorem mem_trim (hc : c ∈ cs) (hblank : isBlank c = false) : c ∈ trim cs := by
  obtain ⟨pre, post, hcs, hpre, hpost⟩ := exists_trim cs
  rw [hcs, List.mem_append, List.mem_append] at hc
  rcases hc with hc | hc | hc
  · rw [hpre c hc] at hblank
    cases hblank
  · exact hc
  · rw [hpost c hc] at hblank
    cases hblank

theorem trim_sublist (cs : List Char) : (trim cs).Sublist cs := by
  have hend : (trim cs).Sublist (cs.dropWhile isBlank) := by
    simpa [trim, dropEndWhile] using
      (List.dropWhile_sublist (l := (cs.dropWhile isBlank).reverse) isBlank).reverse
  exact hend.trans (List.dropWhile_sublist isBlank)

end Trim

section Pieces

variable {p : Char → Bool} {c : Char} {cs w x : List Char} {xs us vs : List (List Char)}

theorem pieces_cons (p : Char → Bool) (c : Char) (cs : List Char) :
    ∃ x xs, pieces p cs = x :: xs
      ∧ pieces p (c :: cs) = if p c then [] :: x :: xs else (c :: x) :: xs := by
  have hne : pieces p cs ≠ [] := by
    cases cs with
    | nil => simp [pieces]
    | cons d cs =>
      rw [pieces, List.foldr_cons]
      split
      · simp
      · split_ifs <;> simp
  cases h : pieces p cs with
  | nil => exact absurd h hne
  | cons x xs =>
    refine ⟨x, xs, rfl, ?_⟩
    rw [pieces, List.foldr_cons, ← pieces, h]

theorem pieces_cons_of_pos (hc : p c = true) : pieces p (c :: cs) = [] :: pieces p cs := by
  obtain ⟨x, xs, hcs, h⟩ := pieces_cons p c cs
  rw [h, hcs, if_pos hc]

/-- What holds no cut belongs to the first piece of what follows it. -/
theorem pieces_append (hw : ∀ c ∈ w, p c = false) (hcs : pieces p cs = x :: xs) :
    pieces p (w ++ cs) = (w ++ x) :: xs := by
  induction w with
  | nil => exact hcs
  | cons c w ih =>
    have hrest := ih fun d hd => hw d (List.mem_cons_of_mem c hd)
    obtain ⟨y, ys, hy, h⟩ := pieces_cons p c (w ++ cs)
    rw [hrest] at hy
    obtain ⟨rfl, rfl⟩ := List.cons.inj hy
    rw [List.cons_append, h, hw c List.mem_cons_self]
    rfl

theorem pieces_of_forall_not (hw : ∀ c ∈ w, p c = false) : pieces p w = [w] := by
  have hnil : pieces p [] = [[]] := rfl
  have h := pieces_append hw hnil
  rwa [List.append_nil] at h

theorem pieces_append_cons (hw : ∀ c ∈ w, p c = false) (hc : p c = true) :
    pieces p (w ++ c :: cs) = w :: pieces p cs := by
  rw [pieces_append hw (pieces_cons_of_pos hc), List.append_nil]

theorem not_of_mem_pieces (h : w ∈ pieces p cs) : ∀ c ∈ w, p c = false := by
  induction cs generalizing w with
  | nil =>
    obtain rfl : w = [] := by simpa [pieces] using h
    simp
  | cons c cs ih =>
    obtain ⟨x, xs, hcs, hcons⟩ := pieces_cons p c cs
    rw [hcs] at ih
    rw [hcons] at h
    split_ifs at h with hc
    · rcases List.mem_cons.1 h with rfl | h
      · simp
      · exact ih h
    · rcases List.mem_cons.1 h with rfl | h
      · intro d hd
        rcases List.mem_cons.1 hd with rfl | hd
        · simpa using hc
        · exact ih List.mem_cons_self d hd
      · exact ih (List.mem_cons_of_mem x h)

theorem pieces_eq (p : Char → Bool) (cs : List Char) :
    pieces p cs = cs.takeWhile (fun c => !p c) ::
      (match cs.dropWhile (fun c => !p c) with
      | [] => []
      | _ :: rest => pieces p rest) := by
  have hfree : ∀ c ∈ cs.takeWhile (fun c => !p c), p c = false := fun c hc => by
    simpa using List.mem_takeWhile_imp hc
  conv_lhs => rw [← List.takeWhile_append_dropWhile (p := fun c => !p c) (l := cs)]
  split
  · rename_i h
    rw [h, List.append_nil, pieces_of_forall_not hfree]
  · rename_i c rest h
    have hc : p c = true := by
      have hhead := List.head?_dropWhile_not (fun c => !p c) cs
      rw [h] at hhead
      simpa using hhead
    rw [h, pieces_append_cons hfree hc]

/-- Before a piece stand the pieces before it, and cuts. -/
theorem exists_append_of_pieces (h : pieces p cs = us ++ w :: vs) :
    ∃ pre post, cs = pre ++ (w ++ post) ∧ ∀ c ∈ pre, p c = true ∨ ∃ u ∈ us, c ∈ u := by
  induction us generalizing cs with
  | nil =>
    rw [pieces_eq] at h
    obtain ⟨rfl, -⟩ := List.cons.inj h
    exact ⟨[], _, List.takeWhile_append_dropWhile.symm, by simp⟩
  | cons u us ih =>
    have happend : cs = _ := (List.takeWhile_append_dropWhile (p := fun c => !p c)).symm
    rw [pieces_eq, List.cons_append] at h
    obtain ⟨rfl, hrest⟩ := List.cons.inj h
    split at hrest
    · simp at hrest
    · rename_i c rest hdrop
      rw [hdrop] at happend
      have hc : p c = true := by
        have hhead := List.head?_dropWhile_not (fun c => !p c) cs
        rw [hdrop] at hhead
        simpa using hhead
      obtain ⟨pre, post, rfl, hpre⟩ := ih hrest
      refine ⟨cs.takeWhile (fun c => !p c) ++ c :: pre, post, by simpa using happend, ?_⟩
      intro d hd
      rcases List.mem_append.1 hd with hd | hd
      · exact .inr ⟨_, List.mem_cons_self, hd⟩
      · rcases List.mem_cons.1 hd with rfl | hd
        · exact .inl hc
        · rcases hpre d hd with hd | ⟨u, hu, hd⟩
          · exact .inl hd
          · exact .inr ⟨u, List.mem_cons_of_mem _ hu, hd⟩

end Pieces

section Words

variable {cs w : List Char} {ws us vs : List (List Char)}

/-- A word is not empty and holds no blank. -/
def IsWord (w : List Char) : Prop := w ≠ [] ∧ ∀ c ∈ w, isBlank c = false

theorem isWord_of_mem_words (h : w ∈ words cs) : IsWord w := by
  obtain ⟨hmem, hne⟩ := List.mem_filter.1 h
  exact ⟨by simpa using hne, not_of_mem_pieces hmem⟩

/-- Before a word stand the words before it, and blanks. -/
theorem exists_append_of_words (h : words cs = us ++ w :: vs) :
    ∃ pre post, cs = pre ++ (w ++ post) ∧ ∀ c ∈ pre, isBlank c = true ∨ ∃ u ∈ us, c ∈ u := by
  obtain ⟨before, rest, hpieces, rfl, hrest⟩ := List.filter_eq_append_iff.1 h
  obtain ⟨skipped, behind, rfl, hskipped, -, -⟩ := List.filter_eq_cons_iff.1 hrest
  rw [← List.append_assoc] at hpieces
  obtain ⟨pre, post, hcs, hpre⟩ := exists_append_of_pieces hpieces
  refine ⟨pre, post, hcs, fun c hc => ?_⟩
  rcases hpre c hc with hc | ⟨u, hu, hc⟩
  · exact .inl hc
  · have hne : (!u.isEmpty) = true := by simpa using List.ne_nil_of_mem hc
    rcases List.mem_append.1 hu with hu | hu
    · exact .inr ⟨u, List.mem_filter.2 ⟨hu, hne⟩, hc⟩
    · exact absurd hne (hskipped u hu)

theorem words_flatMap (h : ∀ w ∈ ws, IsWord w) : words (ws.flatMap (' ' :: ·)) = ws := by
  have hpieces : ∀ {ws : List (List Char)}, (∀ w ∈ ws, IsWord w) →
      pieces isBlank (ws.flatMap (' ' :: ·)) = [] :: ws := by
    intro ws h
    induction ws with
    | nil => rfl
    | cons w ws ih =>
      have hw := h w List.mem_cons_self
      have hrest := ih fun v hv => h v (List.mem_cons_of_mem w hv)
      have hblank : isBlank ' ' = true := rfl
      rw [List.flatMap_cons, List.cons_append, pieces_cons_of_pos hblank,
        pieces_append hw.2 hrest, List.append_nil]
  rw [words, hpieces h, List.filter_cons_of_neg (by simp)]
  exact List.filter_eq_self.2 fun w hw => by simpa using (h w hw).1

theorem mem_intercalate {sep : List Char} {c : Char} (h : c ∈ sep.intercalate ws) :
    c ∈ sep ∨ ∃ w ∈ ws, c ∈ w := by
  induction ws with
  | nil => simp [List.intercalate] at h
  | cons w ws ih =>
    cases ws with
    | nil => exact .inr ⟨w, List.mem_cons_self, by simpa using h⟩
    | cons v ws =>
      rw [List.intercalate_cons_cons, List.mem_append, List.mem_append] at h
      rcases h with (h | h) | h
      · exact .inr ⟨w, List.mem_cons_self, h⟩
      · exact .inl h
      · rcases ih h with h | ⟨u, hu, h⟩
        · exact .inl h
        · exact .inr ⟨u, List.mem_cons_of_mem w hu, h⟩

/-- The entries of a list that is written with a comma and a blank between them. -/
theorem entries_intercalate (h : ∀ w ∈ ws, IsWord w ∧ ',' ∉ w) :
    entries ([',', ' '].intercalate ws) = ws := by
  have hpieces : ∀ {w : List Char} {ws : List (List Char)}, (∀ v ∈ w :: ws, ',' ∉ v) →
      pieces (· == ',') ([',', ' '].intercalate (w :: ws)) = w :: ws.map (' ' :: ·) := by
    intro w ws h
    induction ws generalizing w with
    | nil =>
      have hw : ',' ∉ w := h w List.mem_cons_self
      rw [List.intercalate_singleton, pieces_of_forall_not]
      · rfl
      · rintro c hc
        exact beq_eq_false_iff_ne.2 fun heq => hw (heq ▸ hc)
    | cons v ws ih =>
      have hw : ∀ c ∈ w, (c == ',') = false := fun c hc =>
        beq_eq_false_iff_ne.2 fun heq => h w List.mem_cons_self (heq ▸ hc)
      have hrest := ih fun u hu => h u (List.mem_cons_of_mem w hu)
      have hblank : ∀ c ∈ [' '], (c == ',') = false := List.forall_mem_singleton.2 rfl
      rw [List.intercalate_cons_cons, List.append_assoc, List.cons_append,
        pieces_append_cons hw rfl, pieces_append hblank hrest]
      rfl
  cases ws with
  | nil => rfl
  | cons w ws =>
    have htrim : ∀ v ∈ ws, trim (' ' :: v) = v := fun v hv => by
      have hv := (h v (List.mem_cons_of_mem w hv)).1
      rw [← List.singleton_append, trim_blanks_append (List.forall_mem_singleton.2 rfl),
        trim_of_forall_not hv.2]
    have hws : (ws.map (' ' :: ·)).map trim = ws := by
      rw [List.map_map]
      exact (List.map_congr_left htrim).trans (List.map_id' ws)
    have hw := (h w List.mem_cons_self).1
    rw [entries, hpieces fun v hv => (h v hv).2, List.map_cons, hws, trim_of_forall_not hw.2]
    exact List.filter_eq_self.2 fun v hv => by simpa using (h v hv).1.1

end Words

section Lines

variable {cs l : List Char} {ls : List (List Char)}

/-- Drops a carriage return from the end. -/
def dropReturn (l : List Char) : List Char := if l.getLast? = some '\r' then l.dropLast else l

theorem lines_of_notMem (hne : cs ≠ []) (h : '\n' ∉ cs) : lines cs = [cs] := by
  have hpieces : pieces (· == '\n') cs = [cs] :=
    pieces_of_forall_not fun c hc => beq_eq_false_iff_ne.2 fun heq => h (heq ▸ hc)
  simp [lines, hpieces, hne]

theorem lines_flatMap (h : ∀ l ∈ ls, '\n' ∉ l) :
    lines (ls.flatMap (· ++ ['\n'])) = ls.map dropReturn := by
  have hpieces : pieces (· == '\n') (ls.flatMap (· ++ ['\n'])) = ls ++ [[]] := by
    induction ls with
    | nil => rfl
    | cons l ls ih =>
      have hl : ∀ c ∈ l, (c == '\n') = false := fun c hc =>
        beq_eq_false_iff_ne.2 fun heq => h l List.mem_cons_self (heq ▸ hc)
      rw [List.flatMap_cons, List.append_assoc, List.singleton_append, pieces_append_cons hl rfl,
        ih fun k hk => h k (List.mem_cons_of_mem l hk)]
      rfl
  simp [lines, hpieces, dropReturn]

theorem newline_notMem_of_mem_lines (h : l ∈ lines cs) : '\n' ∉ l := by
  have hpiece : ∀ {w : List Char}, w ∈ pieces (· == '\n') cs → '\n' ∉ w := fun hw hmem => by
    simpa using not_of_mem_pieces hw '\n' hmem
  have hended : ∀ w ∈ (pieces (· == '\n') cs).dropLast.map dropReturn, '\n' ∉ w := by
    intro w hw hmem
    obtain ⟨v, hv, rfl⟩ := List.mem_map.1 hw
    have hv := hpiece ((List.dropLast_sublist _).subset hv)
    unfold dropReturn at hmem
    split_ifs at hmem
    · exact hv ((List.dropLast_sublist _).subset hmem)
    · exact hv hmem
  simp only [lines] at h
  split at h
  · rename_i last hlast
    split_ifs at h
    · exact hended l h
    · rcases List.mem_append.1 h with h | h
      · exact hended l h
      · obtain rfl := List.mem_singleton.1 h
        exact hpiece (List.mem_of_getLast? hlast)
  · exact hended l h

end Lines

end CilMethod.Text

namespace CilMethod.Listing

section Comments

variable {q : Bool} {b c : Char} {cs ds pre : List Char}

theorem stripComment_nil : stripComment q [] = [] := by
  cases q <;> rfl

theorem stripComment_escaped :
    stripComment true ('\\' :: c :: cs) = '\\' :: c :: stripComment true cs := rfl

theorem stripComment_true_cons (h : c = '\\' → cs = []) :
    stripComment true (c :: cs) = c :: stripComment (c != '"') cs := by
  by_cases hc : c = '\\'
  · rw [h hc, hc]
    rfl
  · rw [stripComment.eq_3]
    exact fun d ds hd => absurd hd hc

theorem stripComment_false_cons (h : c = '/' → cs.head? ≠ some '/') :
    stripComment false (c :: cs) = c :: stripComment (c == '"') cs := by
  rw [stripComment.eq_5]
  rintro ds hc rfl
  exact h hc rfl

/-- A line is read from the left, two characters at once behind a backslash in a literal. -/
@[elab_as_elim]
theorem scan_induction {motive : Bool → List Char → Prop} (nil : ∀ q, motive q [])
    (escaped : ∀ c cs, motive true cs → motive true ('\\' :: c :: cs))
    (inside : ∀ c cs, (c = '\\' → cs = []) → motive (c != '"') cs → motive true (c :: cs))
    (comment : ∀ cs, motive false ('/' :: '/' :: cs))
    (outside : ∀ c cs, (c = '/' → cs.head? ≠ some '/') → motive (c == '"') cs →
      motive false (c :: cs)) (q : Bool) (cs : List Char) : motive q cs := by
  induction q, cs using stripComment.induct with
  | case1 q => exact nil q
  | case2 c cs ih => exact escaped c cs ih
  | case3 c cs hno ih =>
    refine inside c cs (fun hc => ?_) ih
    cases cs with
    | nil => rfl
    | cons d ds => exact absurd rfl (hno d ds hc)
  | case4 cs => exact comment cs
  | case5 c cs hno ih =>
    refine outside c cs (fun hc hhead => ?_) ih
    obtain ⟨ds, rfl⟩ := List.head?_eq_some_iff.1 hhead
    exact hno ds hc rfl

theorem stripComment_of_notMem (h : '/' ∉ cs) : stripComment q cs = cs := by
  induction q, cs using scan_induction with
  | nil q => exact stripComment_nil
  | escaped c cs ih => rw [stripComment_escaped, ih (by simp_all)]
  | inside c cs hc ih => rw [stripComment_true_cons hc, ih (by simp_all)]
  | comment cs => simp at h
  | outside c cs hc ih => rw [stripComment_false_cons hc, ih (by simp_all)]

theorem head?_of_stripComment (h : (stripComment q cs).head? = some c) : cs.head? = some c := by
  cases q, cs using scan_induction with
  | nil q => rwa [stripComment_nil] at h
  | escaped d cs => exact h
  | inside d cs hd =>
    rw [stripComment_true_cons hd] at h
    exact h
  | comment cs => cases h
  | outside d cs hd =>
    rw [stripComment_false_cons hd] at h
    exact h

/-- No comment starts in a text, which itself starts within a literal or not. -/
def Uncut (inLiteral : Bool) (cs : List Char) : Prop := stripComment inLiteral cs = cs

namespace Uncut

theorem nil : Uncut q [] := stripComment_nil

theorem escaped_iff : Uncut true ('\\' :: c :: cs) ↔ Uncut true cs := by
  simp [Uncut, stripComment_escaped]

theorem true_cons_iff (hc : c = '\\' → cs = []) :
    Uncut true (c :: cs) ↔ Uncut (c != '"') cs := by
  simp [Uncut, stripComment_true_cons hc]

theorem not_comment : ¬ Uncut false ('/' :: '/' :: cs) := nofun

theorem false_cons_iff :
    Uncut false (c :: cs) ↔ (c = '/' → cs.head? ≠ some '/') ∧ Uncut (c == '"') cs := by
  by_cases h : c = '/' → cs.head? ≠ some '/'
  · rw [Uncut, stripComment_false_cons h, List.cons.injEq]
    exact ⟨fun hcut => ⟨h, hcut.2⟩, fun hcut => ⟨rfl, hcut.2⟩⟩
  · refine iff_of_false (fun hcut => ?_) fun hc => h hc.1
    rw [not_forall] at h
    obtain ⟨rfl, hhead⟩ := h
    obtain ⟨ds, rfl⟩ := List.head?_eq_some_iff.1 (not_not.1 hhead)
    exact not_comment hcut

theorem of_stripComment (q : Bool) (cs : List Char) : Uncut q (stripComment q cs) := by
  induction q, cs using scan_induction with
  | nil q =>
    rw [stripComment_nil]
    exact nil
  | escaped c cs ih => exact escaped_iff.2 ih
  | inside c cs hc ih =>
    rw [stripComment_true_cons hc]
    refine (true_cons_iff fun heq => ?_).2 ih
    rw [hc heq, stripComment_nil]
  | comment cs => exact nil
  | outside c cs hc ih =>
    rw [stripComment_false_cons hc]
    exact false_cons_iff.2 ⟨fun heq hhead => hc heq (head?_of_stripComment hhead), ih⟩

theorem of_notMem (h : '/' ∉ cs) : Uncut q cs := stripComment_of_notMem h

theorem left (h : Uncut q (cs ++ ds)) : Uncut q cs := by
  induction q, cs using scan_induction with
  | nil q => exact nil
  | escaped c cs ih => exact escaped_iff.2 (ih (escaped_iff.1 h))
  | inside c cs hc ih =>
    by_cases heq : c = '\\'
    · rw [hc heq]
      exact of_notMem (by simp [heq])
    · exact (true_cons_iff hc).2 (ih ((true_cons_iff fun h => absurd h heq).1 h))
  | comment cs => exact absurd h not_comment
  | outside c cs hc ih => exact false_cons_iff.2 ⟨hc, ih (false_cons_iff.1 h).2⟩

/-- A text keeps no memory of what stands before it as long as that holds no quote. -/
theorem right (h : Uncut false (pre ++ cs)) (hpre : '"' ∉ pre) : Uncut false cs := by
  induction pre with
  | nil => exact h
  | cons c pre ih =>
    rw [List.mem_cons, not_or] at hpre
    have hrest := (false_cons_iff.1 h).2
    rw [beq_eq_false_iff_ne.2 (Ne.symm hpre.1)] at hrest
    exact ih hrest hpre.2

theorem append (h : Uncut q cs) (hds : '/' ∉ ds) : Uncut q (cs ++ ds) := by
  induction q, cs using scan_induction with
  | nil q => exact of_notMem hds
  | escaped c cs ih => exact escaped_iff.2 (ih (escaped_iff.1 h))
  | inside c cs hc ih =>
    by_cases heq : c = '\\'
    · rw [hc heq]
      exact of_notMem (by simp [heq, hds])
    · exact (true_cons_iff fun h => absurd h heq).2 (ih ((true_cons_iff hc).1 h))
  | comment cs => exact absurd h not_comment
  | outside c cs hc ih =>
    refine false_cons_iff.2 ⟨fun heq hhead => ?_, ih (false_cons_iff.1 h).2⟩
    cases cs with
    | nil => exact hds (List.mem_of_head? hhead)
    | cons d cs => exact hc heq hhead

theorem prepend (h : Uncut false cs) (hslash : '/' ∉ pre) (hquote : '"' ∉ pre) :
    Uncut false (pre ++ cs) := by
  induction pre with
  | nil => exact h
  | cons c pre ih =>
    rw [List.mem_cons, not_or] at hslash hquote
    refine false_cons_iff.2 ⟨fun hc => absurd hc.symm hslash.1, ?_⟩
    rw [beq_eq_false_iff_ne.2 (Ne.symm hquote.1)]
    exact ih hslash.2 hquote.2

end Uncut

/-- Where a comment is cut off, all that is put behind it goes with it. -/
theorem stripComment_append_of_cut (h : ¬ Uncut q cs) :
    stripComment q (cs ++ ds) = stripComment q cs := by
  induction q, cs using scan_induction with
  | nil q => exact absurd Uncut.nil h
  | escaped c cs ih =>
    have hrest := ih (Uncut.escaped_iff.not.1 h)
    rw [List.cons_append, List.cons_append, stripComment_escaped, stripComment_escaped, hrest]
  | inside c cs hc ih =>
    have hrest := ih ((Uncut.true_cons_iff hc).not.1 h)
    have hc : c ≠ '\\' := fun heq => h (by rw [hc heq]; exact .of_notMem (by simp [heq]))
    rw [List.cons_append, stripComment_true_cons fun heq => absurd heq hc,
      stripComment_true_cons fun heq => absurd heq hc, hrest]
  | comment cs => rfl
  | outside c cs hc ih =>
    have hcut : ¬ Uncut (c == '"') cs := fun hcut => h (Uncut.false_cons_iff.2 ⟨hc, hcut⟩)
    have hhead : c = '/' → (cs ++ ds).head? ≠ some '/' := by
      cases cs with
      | nil => exact absurd Uncut.nil hcut
      | cons d cs => exact hc
    rw [List.cons_append, stripComment_false_cons hhead, stripComment_false_cons hc, ih hcut]

/-- A blank at the end of a line stays, or goes with a comment before it. -/
theorem stripComment_append_blank (hb : Text.isBlank b = true) :
    stripComment q (cs ++ [b]) = stripComment q cs
      ∨ stripComment q (cs ++ [b]) = stripComment q cs ++ [b] := by
  have hslash : '/' ∉ [b] := fun hmem => by
    rw [← List.mem_singleton.1 hmem] at hb
    exact absurd hb (by decide)
  by_cases hcut : Uncut q cs
  · refine .inr ?_
    rw [hcut]
    exact hcut.append hslash
  · exact .inl (stripComment_append_of_cut hcut)

theorem content_dropReturn (cs : List Char) : content (Text.dropReturn cs) = content cs := by
  unfold Text.dropReturn
  split_ifs with h
  · have hcs : cs.dropLast ++ ['\r'] = cs := List.dropLast_append_getLast? '\r' h
    have hblank : Text.isBlank '\r' = true := rfl
    have hstrip : stripComment false (cs.dropLast ++ ['\r']) = stripComment false cs.dropLast
        ∨ stripComment false (cs.dropLast ++ ['\r']) = stripComment false cs.dropLast ++ ['\r'] :=
      stripComment_append_blank hblank
    rw [hcs] at hstrip
    unfold content
    rcases hstrip with hstrip | hstrip
    · rw [hstrip]
    · rw [hstrip, Text.trim_append_blank hblank]
  · rfl

/-- The text that counts of a line holds no comment. -/
theorem Uncut.content (cs : List Char) : Uncut false (content cs) := by
  obtain ⟨pre, post, hcs, hpre, -⟩ := Text.exists_trim (stripComment false cs)
  have huncut := Uncut.of_stripComment false cs
  rw [hcs] at huncut
  refine (huncut.right fun hquote => ?_).left
  exact absurd (hpre '"' hquote) (by decide)

theorem content_eq_self (hcut : Uncut false cs)
    (hhead : ∀ c, cs.head? = some c → Text.isBlank c = false)
    (hlast : ∀ c, cs.getLast? = some c → Text.isBlank c = false) : content cs = cs := by
  rw [Listing.content, hcut, Text.trim_eq_self hhead hlast]

end Comments

section SplitCode

variable {cs w tail : List Char} {label : Option String}

theorem splitLabel_of_notMem (h : ':' ∉ cs) : splitLabel cs = (none, cs) := by
  have hdrop : cs.dropWhile (· != ':') = [] :=
    List.dropWhile_eq_nil_iff.2 fun c hc => bne_iff_ne.2 fun heq => h (heq ▸ hc)
  simp [splitLabel, hdrop]

theorem isPlain_of_isLabel (hw : isLabel w = true) : ∀ c ∈ w, Text.isPlain c = true := by
  intro c hc
  simp only [isLabel, Bool.and_eq_true, List.all_eq_true] at hw
  rw [Text.isPlain, hw.2 c hc]
  rfl

theorem isWord_of_isLabel (hw : isLabel w = true) : Text.IsWord w := by
  refine ⟨?_, fun c hc => Text.isBlank_of_isPlain (isPlain_of_isLabel hw c hc)⟩
  rintro rfl
  cases hw

theorem point_notMem_of_isLabel (hw : isLabel w = true) : '.' ∉ w := by
  intro hmem
  simp only [isLabel, Bool.and_eq_true, List.all_eq_true] at hw
  exact absurd (hw.2 '.' hmem) (by decide)

theorem splitLabel_append (hw : isLabel w = true) :
    splitLabel (w ++ ':' :: tail) = (some (String.ofList w), Text.trim tail) := by
  have hcolon : ∀ c ∈ w, (c != ':') = true := fun c hc => bne_iff_ne.2 fun heq =>
    Text.notMem_of_isPlain (isPlain_of_isLabel hw) (by decide) (heq ▸ hc)
  rw [splitLabel, List.takeWhile_append_of_pos hcolon, List.dropWhile_append_of_pos hcolon]
  simp [Text.trim_of_forall_not (isWord_of_isLabel hw).2, hw]

/-- The mnemonic ends at the first blank. -/
theorem splitCode_eq (h : splitLabel cs = (label, w ++ tail)) (hw : Text.IsWord w)
    (htail : ∀ c, tail.head? = some c → Text.isBlank c = true) :
    splitCode cs = .ok ⟨label, String.ofList w, String.ofList (Text.trim (tail.drop 1))⟩ := by
  have hfree : ∀ c ∈ w, (!Text.isBlank c) = true := fun c hc => by rw [hw.2 c hc]; rfl
  have hends : tail.takeWhile (fun c => !Text.isBlank c) = []
      ∧ tail.dropWhile (fun c => !Text.isBlank c) = tail := by
    cases tail with
    | nil => exact ⟨rfl, rfl⟩
    | cons c tail => simp [htail c rfl]
  rw [splitCode, h]
  dsimp only
  rw [List.takeWhile_append_of_pos hfree, List.dropWhile_append_of_pos hfree, hends.1, hends.2,
    List.append_nil, if_neg (by simpa using hw.1)]

theorem splitLine_of_head (h : cs.head? ≠ some '.') :
    splitLine cs = (splitCode cs).map .code := by
  have hafter : ∀ lead : List Char, Text.after? ('.' :: lead) cs = none := fun lead => by
    cases cs with
    | nil => rfl
    | cons c cs =>
      rw [Text.after?, if_neg]
      rintro rfl
      exact h rfl
  have hlocals : Text.after? ".locals".toList cs = none := hafter _
  have htry : Text.after? ".try".toList cs = none := hafter _
  rw [splitLine, hlocals, htry]
  dsimp only
  rw [if_neg h]

/-- What a line is and how its parts were found. -/
theorem splitLine_cases {item : Line} (h : splitLine cs = .ok item) :
    (∃ rest, Text.after? ".locals".toList cs = some rest
      ∧ item = .locals ((Text.entries rest).map String.ofList))
    ∨ (Text.after? ".locals".toList cs = none ∧ ∃ rest parts,
      Text.after? ".try".toList cs = some rest
        ∧ splitTry ((Text.words rest).map String.ofList) = .ok parts ∧ item = .region parts)
    ∨ (Text.after? ".locals".toList cs = none ∧ ∃ parts,
      splitCode cs = .ok parts ∧ item = .code parts) := by
  unfold splitLine at h
  split at h
  · rename_i rest hrest
    exact .inl ⟨rest, hrest, (Except.ok.inj h).symm⟩
  · rename_i hnone
    split at h
    · rename_i rest hrest
      obtain ⟨parts, hparts, rfl⟩ := map_eq_ok_iff.1 h
      exact .inr (.inl ⟨hnone, rest, parts, hrest, hparts, rfl⟩)
    · split_ifs at h
      obtain ⟨parts, hparts, rfl⟩ := map_eq_ok_iff.1 h
      exact .inr (.inr ⟨hnone, parts, hparts, rfl⟩)

theorem splitCode_of_splitLine {parts : CodeLine} (h : splitLine cs = .ok (.code parts)) :
    splitCode cs = .ok parts := by
  rcases splitLine_cases h with ⟨_, -, heq⟩ | ⟨-, _, _, -, -, heq⟩ | ⟨-, parts', hparts, heq⟩
  · cases heq
  · cases heq
  · cases heq
    exact hparts

/-- What is split off as a label is one, and the rest is a part of the line. -/
theorem splitLabel_spec (h : splitLabel cs = (label, tail)) :
    (∀ name, label = some name → isLabel name.toList = true) ∧ tail.Sublist cs := by
  simp only [splitLabel] at h
  split at h
  · rename_i c rest hdrop
    split_ifs at h with hlabel
    · obtain ⟨rfl, rfl⟩ := Prod.mk.inj h
      refine ⟨fun name hname => ?_, ?_⟩
      · rw [← Option.some.inj hname, String.toList_ofList]
        exact hlabel
      · have hrest : (c :: rest).Sublist cs := hdrop ▸ List.dropWhile_sublist _
        exact (Text.trim_sublist rest).trans ((List.sublist_cons_self c rest).trans hrest)
    · obtain ⟨rfl, rfl⟩ := Prod.mk.inj h
      exact ⟨nofun, List.Sublist.refl _⟩
  · obtain ⟨rfl, rfl⟩ := Prod.mk.inj h
    exact ⟨nofun, List.Sublist.refl _⟩

/-- The label of an instruction line is one, and the operand is a part of the line. -/
theorem splitCode_spec {parts : CodeLine} (h : splitCode cs = .ok parts) :
    (∀ name, parts.label = some name → isLabel name.toList = true)
      ∧ parts.operand.toList.Sublist cs := by
  cases hlabel : splitLabel cs with
  | mk label rest =>
    rw [splitCode, hlabel] at h
    dsimp only at h
    split_ifs at h
    obtain ⟨hname, hrest⟩ := splitLabel_spec hlabel
    obtain rfl := Except.ok.inj h
    refine ⟨hname, ?_⟩
    dsimp only
    rw [String.toList_ofList]
    exact (Text.trim_sublist _).trans
      ((List.drop_sublist 1 _).trans ((List.dropWhile_sublist _).trans hrest))

end SplitCode

section SplitLines

variable {source : String} {lines : List (Numbered Line)} {items : List Line}

/-- The texts of the lines that count. -/
def contents (source : String) : List (List Char) :=
  ((Text.lines source.toList).map content).filter fun text => !text.isEmpty

theorem map_item_contentLines (source : String) :
    (contentLines source).map (·.item) = contents source := by
  have h : ∀ (ls : List (List Char)) (n : Nat),
      ((ls.zipIdx n).filterMap fun x => if (content x.1).isEmpty then none
        else some (⟨x.2, content x.1⟩ : Numbered (List Char))).map (·.item) =
      (ls.map content).filter fun text => !text.isEmpty := by
    intro ls
    induction ls with
    | nil => intro n; rfl
    | cons l ls ih =>
      intro n
      rw [List.zipIdx_cons, List.filterMap_cons, List.map_cons, List.filter_cons]
      dsimp only
      cases (content l).isEmpty with
      | true => exact ih (n + 1)
      | false => exact congrArg (content l :: ·) (ih (n + 1))
  exact h _ 1

/-- Splitting gives an item for every text that counts, or fails. -/
theorem exists_splitLines_iff :
    (∃ lines, splitLines source = .ok lines ∧ lines.map (·.item) = items) ↔
      List.Forall₂ (fun text item => splitLine text = .ok item) (contents source) items := by
  rw [← map_item_contentLines, List.forall₂_map_left_iff]
  simp only [splitLines, mapM_eq_ok_iff]
  constructor
  · rintro ⟨lines, h, rfl⟩
    rw [List.forall₂_map_right_iff]
    refine h.imp fun text line hline => ?_
    cases hsplit : splitLine text.item with
    | ok item =>
      rw [hsplit] at hline
      cases hline
      rfl
    | error fault =>
      rw [hsplit] at hline
      cases hline
  · intro h
    generalize contentLines source = texts at h ⊢
    induction h with
    | nil => exact ⟨[], .nil, rfl⟩
    | @cons text item texts items hitem _ ih =>
      obtain ⟨lines, hlines, rfl⟩ := ih
      exact ⟨⟨text.line, item⟩ :: lines, .cons (by rw [hitem]) hlines, rfl⟩

theorem exists_text_of_mem (h : splitLines source = .ok lines) {line : Numbered Line}
    (hline : line ∈ lines) : ∃ text ∈ contents source, splitLine text = .ok line.item := by
  have hitems := exists_splitLines_iff.1 ⟨lines, h, rfl⟩
  obtain ⟨n, hn⟩ := List.mem_iff_getElem?.1 (List.mem_map_of_mem (f := (·.item)) hline)
  obtain ⟨text, htext, hsplit⟩ := exists_of_forall₂ hitems.flip hn
  exact ⟨text, List.mem_of_getElem? htext, hsplit⟩

theorem exists_text_of_mem_codeLines (h : splitLines source = .ok lines) {code : Numbered CodeLine}
    (hcode : code ∈ codeLines lines) :
    ∃ text ∈ contents source, splitLine text = .ok (.code code.item) := by
  obtain ⟨⟨line, item⟩, hline, hitem⟩ := List.mem_filterMap.1 hcode
  cases item with
  | code parts =>
    cases hitem
    exact exists_text_of_mem h hline
  | _ => cases hitem

theorem exists_text_of_mem_tryLines (h : splitLines source = .ok lines) {parts : TryLine}
    (hparts : parts ∈ tryLines lines) :
    ∃ text ∈ contents source, splitLine text = .ok (.region parts) := by
  obtain ⟨⟨line, item⟩, hline, hitem⟩ := List.mem_filterMap.1 hparts
  cases item with
  | region parts =>
    cases hitem
    exact exists_text_of_mem h hline
  | _ => cases hitem

/-- A text is one line of its own, with something on it. -/
structure Shows (text : String) (item : Line) : Prop where
  oneLine : '\n' ∉ text.toList
  counts : content text.toList ≠ []
  split : splitLine (content text.toList) = .ok item

theorem contents_join {texts : List String} (h : ∀ t ∈ texts, '\n' ∉ t.toList)
    (hcounts : ∀ t ∈ texts, content t.toList ≠ []) :
    contents (String.join (texts.map (· ++ "\n"))) = texts.map fun t => content t.toList := by
  have hjoin : (String.join (texts.map (· ++ "\n"))).toList =
      (texts.map String.toList).flatMap (· ++ ['\n']) := by
    rw [String.toList_join, List.flatMap_map, List.flatMap_map]
    exact congrArg (texts.flatMap ·) (funext fun t => String.toList_append)
  rw [contents, hjoin, Text.lines_flatMap (by simpa using h), List.map_map, List.map_map]
  have hmap : texts.map ((content ∘ Text.dropReturn) ∘ String.toList) =
      texts.map fun t => content t.toList :=
    List.map_congr_left fun t _ => content_dropReturn t.toList
  rw [hmap]
  refine List.filter_eq_self.2 fun text htext => ?_
  obtain ⟨t, ht, rfl⟩ := List.mem_map.1 htext
  simpa using hcounts t ht

theorem exists_splitLines_join {texts : List String} (h : List.Forall₂ Shows texts items) :
    ∃ lines, splitLines (String.join (texts.map (· ++ "\n"))) = .ok lines
      ∧ lines.map (·.item) = items := by
  have hshows : ∀ t ∈ texts, ∃ item, Shows t item := fun t ht => by
    obtain ⟨n, hn⟩ := List.mem_iff_getElem?.1 ht
    obtain ⟨item, -, hitem⟩ := exists_of_forall₂ h hn
    exact ⟨item, hitem⟩
  rw [exists_splitLines_iff, contents_join, List.forall₂_map_left_iff]
  · exact h.imp fun t item hitem => hitem.split
  · intro t ht
    obtain ⟨item, hitem⟩ := hshows t ht
    exact hitem.oneLine
  · intro t ht
    obtain ⟨item, hitem⟩ := hshows t ht
    exact hitem.counts

end SplitLines

end CilMethod.Listing
