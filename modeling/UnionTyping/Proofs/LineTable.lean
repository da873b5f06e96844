/-
  UnionTyping/Proofs/LineTable.lean
  =================================
  **Offsets and positions are two names of the same places.**

  In the table of a text the lines start in ascending order from 0, and none starts behind the
  end (`LineTable.Ordered`).  A byte is on the line that is the last to start at or before it,
  and its column counts from there (`LineTable.Places`); the end of the text is a place of the
  last line.  Each offset up to the length has one such position, a greater offset has a greater
  one, and `position` and `offset` lead from the one to the other (`LineTable.ofSource_orderIso`).
  The line is one more than the number of line feeds before it.
-/
import Mathlib.Data.String.Basic
import UnionTyping.LineTable

namespace UnionTyping.LineTable

open String (utf8Len utf8Len_cons utf8Len_append utf8Len_toList)

/-! ### The starts of lines -/

theorem startsAfter_append (offset : Nat) (before after : List Char) :
    startsAfter offset (before ++ after) =
      startsAfter offset before ++ startsAfter (offset + utf8Len before) after := by
  induction before generalizing offset with
  | nil => rfl
  | cons c before ih =>
    have hoffset : offset + c.utf8Size + utf8Len before = offset + utf8Len (c :: before) := by
      rw [utf8Len_cons]
      omega
    rw [List.cons_append, startsAfter, startsAfter, ih, hoffset]
    split
    · rw [List.cons_append]
    · rfl

/-- Lines start behind the offset at which the text begins, and not behind its end. -/
theorem bounds_of_mem_startsAfter {offset start : Nat} {cs : List Char}
    (h : start ∈ startsAfter offset cs) : offset < start ∧ start ≤ offset + utf8Len cs := by
  induction cs generalizing offset with
  | nil => cases h
  | cons c cs ih =>
    have hsize := c.utf8Size_pos
    have hlater : start ∈ startsAfter (offset + c.utf8Size) cs →
        offset < start ∧ start ≤ offset + utf8Len (c :: cs) := by
      intro hmem
      have hbounds := ih hmem
      rw [utf8Len_cons]
      omega
    rw [startsAfter] at h
    split at h
    · rcases List.mem_cons.mp h with rfl | hmem
      · rw [utf8Len_cons]
        omega
      · exact hlater hmem
    · exact hlater h

theorem pairwise_startsAfter (offset : Nat) (cs : List Char) :
    (startsAfter offset cs).Pairwise (· < ·) := by
  induction cs generalizing offset with
  | nil => exact List.Pairwise.nil
  | cons c cs ih =>
    rw [startsAfter]
    split
    · exact List.pairwise_cons.mpr ⟨fun _ hmem => (bounds_of_mem_startsAfter hmem).1, ih _⟩
    · exact ih _

/-- A line starts behind each line feed. -/
theorem length_startsAfter (offset : Nat) (cs : List Char) :
    (startsAfter offset cs).length = cs.count '\n' := by
  induction cs generalizing offset with
  | nil => rfl
  | cons c cs ih =>
    rw [startsAfter, List.count_cons]
    split
    · rename_i hfeed
      rw [List.length_cons, ih, hfeed, beq_self_eq_true, if_pos rfl]
    · rename_i hother
      rw [ih, beq_eq_false_iff_ne.mpr hother, if_neg Bool.false_ne_true, Nat.add_zero]

theorem startsAfter_of_not_mem {offset : Nat} {cs : List Char} (h : '\n' ∉ cs) :
    startsAfter offset cs = [] := by
  rw [← List.length_eq_zero_iff, length_startsAfter, List.count_eq_zero]
  exact h

/-- The first line starts at 0, the others in ascending order, and none behind the end. -/
structure Ordered (t : LineTable) : Prop where
  first : t.starts.head? = some 0
  ascending : t.starts.Pairwise (· < ·)
  within : ∀ start ∈ t.starts, start ≤ t.length

theorem ordered_ofSource (source : String) : (ofSource source).Ordered where
  first := rfl
  ascending := List.pairwise_cons.mpr
    ⟨fun _ hmem => (bounds_of_mem_startsAfter hmem).1, pairwise_startsAfter 0 _⟩
  within := by
    refine List.forall_mem_cons.mpr ⟨Nat.zero_le _, fun start hmem => ?_⟩
    have hle := (bounds_of_mem_startsAfter hmem).2
    rwa [Nat.zero_add, utf8Len_toList] at hle

/-- No text has more lines than bytes, but for the last one. -/
theorem count_le (source : String) : (ofSource source).count ≤ source.utf8ByteSize + 1 := by
  rw [count, ofSource, List.length_cons, length_startsAfter]
  have hchars : source.toList.count '\n' ≤ utf8Len source.toList := by
    induction source.toList with
    | nil => exact Nat.zero_le _
    | cons c cs ih =>
      have hsize := c.utf8Size_pos
      rw [List.count_cons, utf8Len_cons]
      split <;> omega
  rw [utf8Len_toList] at hchars
  omega

/-! ### Places -/

/-- The byte at `offset` has this line and column: the line exists, the column counts from its
    start, and the next line starts later.  On the last line the end of the text has a place as
    well. -/
structure Places (t : LineTable) (line column offset : Nat) : Prop where
  line_pos : 1 ≤ line
  column_pos : 1 ≤ column
  start : ∃ start, t.starts[line - 1]? = some start ∧ start + (column - 1) = offset
  before_next : ∀ next, t.starts[line]? = some next → offset < next
  before_end : t.starts[line]? = none → offset ≤ t.length

variable {t : LineTable} {line column offset line' column' offset' : Nat}

theorem Places.line_le (h : t.Places line column offset) : line ≤ t.count := by
  obtain ⟨start, hstart, -⟩ := h.start
  have hlt := (List.getElem?_eq_some_iff.mp hstart).1
  have hpos := h.line_pos
  rw [count]
  omega

namespace Ordered

variable (ht : t.Ordered)
include ht

theorem le_length (h : t.Places line column offset) : offset ≤ t.length := by
  cases hnext : t.starts[line]? with
  | none => exact h.before_end hnext
  | some next =>
    exact Nat.le_trans (h.before_next next hnext).le (ht.within next (List.mem_of_getElem? hnext))

theorem start_le_start {i j a b : Nat} (hij : i ≤ j) (ha : t.starts[i]? = some a)
    (hb : t.starts[j]? = some b) : a ≤ b := by
  obtain ⟨hi, rfl⟩ := List.getElem?_eq_some_iff.mp ha
  obtain ⟨hj, rfl⟩ := List.getElem?_eq_some_iff.mp hb
  rcases Nat.lt_or_eq_of_le hij with hlt | rfl
  · exact (List.pairwise_iff_getElem.mp ht.ascending i j hi hj hlt).le
  · exact Nat.le_refl _

/-- The line of a greater offset is no smaller: otherwise the next line would start between the
    two. -/
theorem line_le_line (h : t.Places line column offset) (h' : t.Places line' column' offset')
    (hle : offset ≤ offset') : line ≤ line' := by
  by_contra hlt
  obtain ⟨start, hstart, hcolumn⟩ := h.start
  have hexists : line' < t.starts.length := by
    have hline := (List.getElem?_eq_some_iff.mp hstart).1
    omega
  have hnext := List.getElem?_eq_getElem hexists
  have hbefore := h'.before_next _ hnext
  have hstarts := ht.start_le_start (i := line') (j := line - 1) (by omega) hnext hstart
  omega

theorem position_lt (h : t.Places line column offset) (h' : t.Places line' column' offset')
    (hlt : offset < offset') : line < line' ∨ line = line' ∧ column < column' := by
  rcases Nat.lt_or_eq_of_le (ht.line_le_line h h' hlt.le) with hline | rfl
  · exact .inl hline
  · obtain ⟨start, hstart, hcolumn⟩ := h.start
    obtain ⟨start', hstart', hcolumn'⟩ := h'.start
    rw [hstart, Option.some.injEq] at hstart'
    exact .inr ⟨rfl, by omega⟩

theorem position_unique (h : t.Places line column offset) (h' : t.Places line' column' offset) :
    line = line' ∧ column = column' := by
  have hline : line = line' :=
    Nat.le_antisymm (ht.line_le_line h h' (Nat.le_refl _)) (ht.line_le_line h' h (Nat.le_refl _))
  subst hline
  obtain ⟨start, hstart, hcolumn⟩ := h.start
  obtain ⟨start', hstart', hcolumn'⟩ := h'.start
  rw [hstart, Option.some.injEq] at hstart'
  have hpos := h.column_pos
  have hpos' := h'.column_pos
  exact ⟨rfl, by omega⟩

/-- The line is the number of lines that start at or before the offset. -/
theorem line_eq_countP (h : t.Places line column offset) :
    line = t.starts.countP fun start => decide (start ≤ offset) := by
  obtain ⟨start, hstart, hcolumn⟩ := h.start
  have hbefore : ∀ s ∈ t.starts.take line, decide (s ≤ offset) = true := by
    intro s hs
    obtain ⟨i, hi, rfl⟩ := List.mem_take_iff_getElem.mp hs
    have hle := ht.start_le_start (i := i) (j := line - 1) (by omega)
      (List.getElem?_eq_getElem (by omega)) hstart
    exact decide_eq_true (by omega)
  have hbehind : ∀ s ∈ t.starts.drop line, ¬ decide (s ≤ offset) = true := by
    intro s hs
    obtain ⟨i, hi, rfl⟩ := List.mem_drop_iff_getElem.mp hs
    have hnext := List.getElem?_eq_getElem (l := t.starts) (i := line) (by omega)
    have hlt := h.before_next _ hnext
    have hle := ht.start_le_start (i := line) (j := line + i) (by omega) hnext
      (List.getElem?_eq_getElem (by omega))
    rw [decide_eq_true_iff]
    omega
  calc line
    _ = (t.starts.take line).length + 0 := (List.length_take_of_le h.line_le).symm
    _ = (t.starts.take line).countP (fun start => decide (start ≤ offset)) +
          (t.starts.drop line).countP (fun start => decide (start ≤ offset)) := by
      rw [List.countP_eq_length.mpr hbefore, List.countP_eq_zero.mpr hbehind]
    _ = t.starts.countP fun start => decide (start ≤ offset) := by
      rw [← List.countP_append, List.take_append_drop]

end Ordered

/-! ### From offsets to positions and back -/

/-- The line that is found starts at or before the offset, and the next one behind it. -/
theorem lineOf_spec {starts : List Nat} {first : Nat} (hfirst : starts.head? = some first)
    (hle : first ≤ offset) :
    ∃ k start, lineOf offset starts = (k + 1, start) ∧ starts[k]? = some start ∧
      start ≤ offset ∧ ∀ next, starts[k + 1]? = some next → offset < next := by
  induction starts generalizing first with
  | nil => cases hfirst
  | cons start rest ih =>
    cases hfirst
    cases rest with
    | nil => exact ⟨0, start, rfl, rfl, hle, nofun⟩
    | cons next rest =>
      rw [lineOf]
      split
      · rename_i hlt
        refine ⟨0, start, rfl, rfl, hle, fun next' hnext => ?_⟩
        cases hnext
        exact hlt
      · rename_i hge
        obtain ⟨k, found, hline, hfound, hbelow, hnext⟩ := ih rfl (Nat.le_of_not_lt hge)
        exact ⟨k + 1, found, by rw [hline], hfound, hbelow, hnext⟩

theorem word_of_lt {n : Nat} (h : n < wordLimit) : word n = .ok n := if_pos h

section

variable (ht : t.Ordered) (hfits : t.length + 1 < wordLimit)
include ht hfits

/-- Every offset up to the end of the text has a position. -/
theorem Ordered.exists_position (hle : offset ≤ t.length) :
    ∃ line column, t.position offset = .ok (line, column) ∧ t.Places line column offset := by
  obtain ⟨k, start, hline, hstart, hbelow, hnext⟩ := lineOf_spec ht.first (Nat.zero_le offset)
  refine ⟨k + 1, offset - start + 1, ?_, ?_⟩
  · have hword : word (offset - start + 1) = .ok (offset - start + 1) := word_of_lt (by omega)
    rw [position, hline]
    simp only [hword]
    rfl
  · exact {
      line_pos := Nat.le_add_left 1 k
      column_pos := Nat.le_add_left 1 _
      start := ⟨start, hstart, by omega⟩
      before_next := hnext
      before_end := fun _ => hle }

theorem Ordered.position_eq (h : t.Places line column offset) :
    t.position offset = .ok (line, column) := by
  obtain ⟨line', column', hposition, h'⟩ := ht.exists_position hfits (ht.le_length h)
  obtain ⟨rfl, rfl⟩ := ht.position_unique h h'
  exact hposition

theorem Ordered.places_of_position (hle : offset ≤ t.length)
    (hposition : t.position offset = .ok (line, column)) : t.Places line column offset := by
  obtain ⟨line', column', hposition', h⟩ := ht.exists_position hfits hle
  rw [hposition'] at hposition
  cases hposition
  exact h

theorem Ordered.offset_eq (h : t.Places line column offset) :
    t.offset line column = .ok (some offset) := by
  have hle := ht.le_length h
  obtain ⟨start, hstart, hcolumn⟩ := h.start
  have hword : word (start + (column - 1)) = .ok offset := by
    rw [hcolumn]
    exact word_of_lt (by omega)
  rw [LineTable.offset, if_neg (Nat.ne_of_gt h.line_pos), hstart]
  simp only [hword]
  exact congrArg (fun o => Except.ok (some o)) (Nat.min_eq_left hle)

end

/-! ### Line feeds -/

/-- Behind whole lines and a part of the next one, the line counts the line feeds, and the
    column the bytes behind the last of them. -/
theorem places_of_lines {source : String} {lead text after : List Char}
    (hsource : source.toList = lead ++ (text ++ after))
    (hlead : lead = [] ∨ lead.getLast? = some '\n') (htext : '\n' ∉ text) :
    (ofSource source).Places (lead.count '\n' + 1) (utf8Len text + 1) (utf8Len (lead ++ text)) := by
  have hstarts : (ofSource source).starts =
      (0 :: startsAfter 0 lead) ++ startsAfter (utf8Len (lead ++ text)) after := by
    have hlater : startsAfter 0 source.toList =
        startsAfter 0 lead ++ startsAfter (utf8Len (lead ++ text)) after := by
      rw [hsource, startsAfter_append, startsAfter_append, startsAfter_of_not_mem htext,
        Nat.zero_add, List.nil_append, utf8Len_append]
    exact congrArg (0 :: ·) hlater
  have hcount : (0 :: startsAfter 0 lead).length = lead.count '\n' + 1 := by
    rw [List.length_cons, length_startsAfter]
  have hlast : (0 :: startsAfter 0 lead)[lead.count '\n']? = some (utf8Len lead) := by
    rcases hlead with rfl | hfeed
    · rfl
    · obtain ⟨init, rfl⟩ := List.getLast?_eq_some_iff.mp hfeed
      have hend : startsAfter (0 + utf8Len init) ['\n'] = [utf8Len (init ++ ['\n'])] := by
        rw [Nat.zero_add, utf8Len_append]
        rfl
      have hlength : (init ++ ['\n']).count '\n' = (startsAfter 0 init).length + 1 := by
        rw [List.count_append, length_startsAfter]
        rfl
      rw [startsAfter_append, hend, hlength, List.getElem?_cons_succ,
        List.getElem?_append_right (Nat.le_refl _), Nat.sub_self]
      rfl
  have hle : utf8Len (lead ++ text) ≤ (ofSource source).length := by
    have hlength : (ofSource source).length = utf8Len (lead ++ (text ++ after)) := by
      rw [← hsource, utf8Len_toList]
      rfl
    rw [hlength, utf8Len_append, utf8Len_append, utf8Len_append]
    omega
  refine ⟨Nat.le_add_left 1 _, Nat.le_add_left 1 _, ⟨utf8Len lead, ?_, ?_⟩, fun next hnext => ?_,
    fun _ => hle⟩
  · rw [hstarts, Nat.add_sub_cancel, List.getElem?_append_left (by omega)]
    exact hlast
  · rw [Nat.add_sub_cancel, utf8Len_append]
  · rw [hstarts, List.getElem?_append_right (Nat.le_of_eq hcount)] at hnext
    exact (bounds_of_mem_startsAfter (List.mem_of_getElem? hnext)).1

/-! ### The order of places -/

/-- Between the offsets of a text and its positions, `position` and `offset` go back and forth
    and keep the order, by line and then by column; no number on the way is too large.  The line
    of an offset is the number of lines that start at or before it: one more than the number of
    line feeds before, and the column is one more than the number of bytes behind the last of
    these. -/
theorem ofSource_orderIso (source : String) (hfits : source.utf8ByteSize + 1 < wordLimit) :
    let t := ofSource source
    (∀ o ≤ source.utf8ByteSize, ∃ line column, t.position o = .ok (line, column) ∧
      t.offset line column = .ok (some o) ∧ 1 ≤ line ∧ line ≤ t.count ∧
        line = t.starts.countP fun start => decide (start ≤ o)) ∧
    (∀ o₁ o₂ line₁ column₁ line₂ column₂, o₁ < o₂ → o₂ ≤ source.utf8ByteSize →
      t.position o₁ = .ok (line₁, column₁) → t.position o₂ = .ok (line₂, column₂) →
        line₁ < line₂ ∨ line₁ = line₂ ∧ column₁ < column₂) ∧
    (∀ line column o, t.Places line column o →
      t.offset line column = .ok (some o) ∧ t.position o = .ok (line, column)) ∧
    t.count < wordLimit ∧ (∀ start ∈ t.starts, start < wordLimit) ∧
    ∀ lead text after, source.toList = lead ++ (text ++ after) →
      (lead = [] ∨ lead.getLast? = some '\n') → '\n' ∉ text →
        t.position (utf8Len (lead ++ text)) = .ok (lead.count '\n' + 1, utf8Len text + 1) := by
  intro t
  have ht : t.Ordered := ordered_ofSource source
  refine ⟨fun o hle => ?_, ?_,
    fun line column o h => ⟨ht.offset_eq hfits h, ht.position_eq hfits h⟩,
    Nat.lt_of_le_of_lt (count_le source) hfits, fun start hstart => ?_,
    fun lead text after hsource hlead htext =>
      ht.position_eq hfits (places_of_lines hsource hlead htext)⟩
  · obtain ⟨line, column, hposition, h⟩ := ht.exists_position hfits hle
    exact ⟨line, column, hposition, ht.offset_eq hfits h, h.line_pos, h.line_le,
      ht.line_eq_countP h⟩
  · intro o₁ o₂ line₁ column₁ line₂ column₂ hlt hle h₁ h₂
    exact ht.position_lt (ht.places_of_position hfits (hlt.le.trans hle) h₁)
      (ht.places_of_position hfits hle h₂) hlt
  · exact Nat.lt_of_le_of_lt (ht.within start hstart) (Nat.lt_of_succ_lt hfits)

/-- An empty line, a character of two bytes, and a line feed at the end. -/
theorem unevenLines_orderIso :
    "a\n\né\n".utf8ByteSize + 1 < wordLimit ∧
      (ofSource "a\n\né\n").Places 3 2 4 ∧
      (ofSource "a\n\né\n").offset 3 2 = .ok (some 4) ∧
      (ofSource "a\n\né\n").position 4 = .ok (3, 2) ∧
      (ofSource "a\n\né\n").position (utf8Len ['a', '\n', '\n', 'é', '\n']) = .ok (4, 1) := by
  have hfits : "a\n\né\n".utf8ByteSize + 1 < wordLimit := by decide +kernel
  have hplaces : (ofSource "a\n\né\n").Places 3 2 4 :=
    ⟨by decide, by decide, ⟨3, by decide +kernel, rfl⟩, by decide +kernel, nofun⟩
  obtain ⟨-, -, hback, -, -, hlines⟩ := ofSource_orderIso "a\n\né\n" hfits
  exact ⟨hfits, hplaces, (hback 3 2 4 hplaces).1, (hback 3 2 4 hplaces).2,
    hlines ['a', '\n', '\n', 'é', '\n'] [] [] rfl (.inr rfl) List.not_mem_nil⟩

end UnionTyping.LineTable
