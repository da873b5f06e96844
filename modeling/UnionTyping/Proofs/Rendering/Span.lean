/-
  UnionTyping/Proofs/Rendering/Span.lean
  ======================================
  **Where the label of a location is drawn.**

  The span of a location is found in bytes: it starts at the byte of the location and ends with
  the token there (`Span.ofLocation_eq`).  It is drawn in characters.  A label marks the token
  when its span, read in that way, starts at the character of the location and covers the run of
  token characters there and nothing else (`Span.Marks`).  A character that takes several bytes
  moves everything behind it, so a label marks the token exactly when all characters up to the
  end of the token are ASCII (`Span.marks_iff_ascii`).
-/
import Mathlib.Data.List.TakeWhile
import UnionTyping.Proofs.LineTable
import UnionTyping.Rendering.Span

namespace UnionTyping

open String (utf8Len utf8Len_cons utf8Len_append utf8Len_toList)

/-! ### Bytes and characters -/

theorem byteLength_eq_utf8Len (cs : List Char) : byteLength cs = utf8Len cs := by
  induction cs with
  | nil => rfl
  | cons c cs ih => rw [utf8Len_cons, ← ih, Nat.add_comm]; rfl

theorem dropBytes_byteLength (before rest : List Char) :
    dropBytes (byteLength before) (before ++ rest) = some rest := by
  induction before with
  | nil =>
    cases rest with
    | nil => rfl
    | cons c rest => rfl
  | cons c before ih =>
    obtain ⟨n, hn⟩ := Nat.exists_eq_add_one.mpr c.utf8Size_pos
    have hbytes : byteLength (c :: before) = n + byteLength before + 1 := by
      rw [Nat.add_right_comm, ← hn]
      rfl
    have hrest : n + byteLength before + 1 - c.utf8Size = byteLength before := by omega
    rw [hbytes, List.cons_append, dropBytes, if_pos (by omega), hrest, ih]

theorem length_le_utf8Len (cs : List Char) : cs.length ≤ utf8Len cs := by
  induction cs with
  | nil => exact Nat.le_refl 0
  | cons c cs ih =>
    have hsize := c.utf8Size_pos
    rw [List.length_cons, utf8Len_cons]
    omega

/-- A text has as many bytes as characters when all of them are ASCII. -/
theorem utf8Len_eq_length_iff {cs : List Char} :
    utf8Len cs = cs.length ↔ ∀ c ∈ cs, c.val ≤ 127 := by
  induction cs with
  | nil => simp
  | cons c cs ih =>
    have hsize := c.utf8Size_pos
    have hle := length_le_utf8Len cs
    rw [utf8Len_cons, List.length_cons, List.forall_mem_cons, ← ih, ← Char.utf8Size_eq_one_iff]
    omega

/-! ### Runs -/

/-- The characters from `start` up to `stop` can be part of a token, and the one behind them
    cannot. -/
structure IsRun (source : List Char) (start stop : Nat) : Prop where
  ordered : start ≤ stop
  token : ∀ i, start ≤ i → i < stop → ∃ c, source[i]? = some c ∧ isTokenChar c = true
  maximal : ∀ c, source[stop]? = some c → isTokenChar c = false

theorem IsRun.stop_le {source : List Char} {start stop stop' : Nat} (h : IsRun source start stop)
    (h' : IsRun source start stop') : stop ≤ stop' := by
  by_contra hlt
  obtain ⟨c, hc, htoken⟩ := h.token stop' h'.ordered (Nat.lt_of_not_le hlt)
  rw [h'.maximal c hc] at htoken
  cases htoken

theorem isRun_takeWhile (before rest : List Char) :
    IsRun (before ++ rest) before.length
      (before.length + (rest.takeWhile isTokenChar).length) where
  ordered := Nat.le_add_right _ _
  token := by
    intro i hstart hstop
    have hi : i - before.length < (rest.takeWhile isTokenChar).length := by omega
    refine ⟨(rest.takeWhile isTokenChar)[i - before.length], ?_,
      List.mem_takeWhile_imp (List.getElem_mem hi)⟩
    rw [List.getElem?_append_right hstart, (List.takeWhile_prefix isTokenChar).getElem hi]
    exact List.getElem?_eq_getElem _
  maximal := by
    intro c hc
    rw [List.getElem?_append_right (Nat.le_add_right _ _), Nat.add_sub_cancel_left] at hc
    have hhead : (rest.dropWhile isTokenChar).head? = some c := by
      have hsplit : rest[(rest.takeWhile isTokenChar).length]? =
          (rest.takeWhile isTokenChar ++ rest.dropWhile isTokenChar)[
            (rest.takeWhile isTokenChar).length]? := by
        rw [List.takeWhile_append_dropWhile]
      rw [List.head?_eq_getElem?, ← hc, hsplit, List.getElem?_append_right (Nat.le_refl _),
        Nat.sub_self]
    have hnot := List.head?_dropWhile_not isTokenChar rest
    rw [hhead] at hnot
    exact hnot

theorem isRun_iff {before rest : List Char} {stop : Nat} :
    IsRun (before ++ rest) before.length stop ↔
      stop = before.length + (rest.takeWhile isTokenChar).length := by
  have hrun := isRun_takeWhile before rest
  constructor
  · intro h
    exact Nat.le_antisymm (h.stop_le hrun) (hrun.stop_le h)
  · rintro rfl
    exact hrun

/-! ### Spans -/

namespace Span

/-- Read in characters, the span starts at the character at `position`, and if this one can be
    part of a token the span ends with the run of such characters. -/
structure Marks (source : List Char) (position : Nat) (span : Span) : Prop where
  start : span.start = position
  run : (∃ c, source[position]? = some c ∧ isTokenChar c = true) →
    IsRun source span.start span.stop

variable {source : String} {before after : List Char} {c : Char} {loc : Location}

/-- The span of a location goes from its byte to the end of the token, or over one byte where
    there is none. -/
theorem ofLocation_eq (hfits : source.utf8ByteSize + 1 < wordLimit)
    (hsource : source.toList = before ++ c :: after)
    (hplace : (LineTable.ofSource source).Places loc.line loc.column (utf8Len before)) :
    ofLocation source loc = .ok ⟨utf8Len before,
      utf8Len before + max (utf8Len ((c :: after).takeWhile isTokenChar)) 1⟩ := by
  have hoffset := (LineTable.ordered_ofSource source).offset_eq hfits hplace
  have hdrop : dropBytes (utf8Len before) source.toList = some (c :: after) := by
    rw [hsource, ← byteLength_eq_utf8Len, dropBytes_byteLength]
  have hwithin : utf8Len before + max (utf8Len ((c :: after).takeWhile isTokenChar)) 1 ≤
      source.utf8ByteSize := by
    have htoken := String.utf8Len_le_of_prefix
      (List.takeWhile_prefix isTokenChar (l := c :: after))
    have hsize := c.utf8Size_pos
    rw [← utf8Len_toList, hsource, utf8Len_append]
    rw [utf8Len_cons] at htoken ⊢
    omega
  rw [ofLocation, hoffset]
  simp only [ofOffset, hdrop, Option.getD_some, byteLength_eq_utf8Len, Nat.min_eq_left hwithin]

/-- A span marks the token at a character when it starts there and ends with the run. -/
theorem marks_iff {span : Span} (hsource : source.toList = before ++ c :: after) :
    span.Marks source.toList before.length ↔ span.start = before.length ∧
      (isTokenChar c = true →
        span.stop = before.length + ((c :: after).takeWhile isTokenChar).length) := by
  have hchar : source.toList[before.length]? = some c := by
    rw [hsource, List.getElem?_append_right (Nat.le_refl _), Nat.sub_self]
    rfl
  constructor
  · rintro ⟨hstart, hrun⟩
    refine ⟨hstart, fun htoken => ?_⟩
    have hends := hrun ⟨c, hchar, htoken⟩
    rwa [hstart, hsource, isRun_iff] at hends
  · rintro ⟨hstart, hstop⟩
    refine ⟨hstart, ?_⟩
    rintro ⟨c', hc', htoken⟩
    rw [hchar, Option.some.injEq] at hc'
    subst hc'
    rw [hstart, hsource, isRun_iff]
    exact hstop htoken

/-- For every character of a text, the label at its location has the bytes from that character
    to the end of the token as its span.  Read in characters, the span marks the token exactly
    when all characters before the location, and those of the token, are ASCII. -/
theorem marks_iff_ascii (hfits : source.utf8ByteSize + 1 < wordLimit)
    (hsource : source.toList = before ++ c :: after)
    (hplace : (LineTable.ofSource source).Places loc.line loc.column (utf8Len before)) :
    ∃ span, ofLocation source loc = .ok span ∧
      span.start = utf8Len before ∧
      (isTokenChar c = true →
        span.stop = utf8Len (before ++ (c :: after).takeWhile isTokenChar)) ∧
      (isTokenChar c = false → span.stop = utf8Len before + 1) ∧
      (span.Marks source.toList before.length ↔
        (∀ b ∈ before, b.val ≤ 127) ∧
          (isTokenChar c = true → ∀ b ∈ (c :: after).takeWhile isTokenChar, b.val ≤ 127)) := by
  have hstop : isTokenChar c = true →
      max (utf8Len ((c :: after).takeWhile isTokenChar)) 1 =
        utf8Len ((c :: after).takeWhile isTokenChar) := by
    intro htoken
    have hsize := c.utf8Size_pos
    rw [List.takeWhile_cons_of_pos htoken, utf8Len_cons]
    omega
  refine ⟨_, ofLocation_eq hfits hsource hplace, rfl, fun htoken => ?_, fun hother => ?_, ?_⟩
  · rw [utf8Len_append, hstop htoken]
  · rw [List.takeWhile_cons_of_neg (Bool.not_eq_true _ ▸ hother)]
    rfl
  · rw [marks_iff hsource, ← utf8Len_eq_length_iff, ← utf8Len_eq_length_iff]
    refine and_congr_right fun hstart => forall_congr' fun htoken => ?_
    simp only at hstart ⊢
    rw [hstart, hstop htoken, Nat.add_right_inj]

/-- The name in the second line is marked, whatever stands behind it. -/
theorem plainName_marked :
    "a = 1\nsum + 'é'".utf8ByteSize + 1 < wordLimit ∧
      (LineTable.ofSource "a = 1\nsum + 'é'").Places 2 1 (utf8Len "a = 1\n".toList) ∧
      ∃ span, ofLocation "a = 1\nsum + 'é'" ⟨"plain.qz", 2, 1⟩ = .ok span ∧
        span.Marks "a = 1\nsum + 'é'".toList 6 := by
  have hfits : "a = 1\nsum + 'é'".utf8ByteSize + 1 < wordLimit := by decide +kernel
  have hplace : (LineTable.ofSource "a = 1\nsum + 'é'").Places 2 1 (utf8Len "a = 1\n".toList) :=
    ⟨by decide, by decide, ⟨6, by decide +kernel, by decide +kernel⟩, nofun,
      fun _ => by decide +kernel⟩
  obtain ⟨span, hspan, -, -, -, hmarks⟩ := @marks_iff_ascii "a = 1\nsum + 'é'"
    "a = 1\n".toList "um + 'é'".toList 's' ⟨"plain.qz", 2, 1⟩ hfits rfl hplace
  have hbefore : utf8Len "a = 1\n".toList = 6 := by decide +kernel
  have htoken : utf8Len ("sum + 'é'".toList.takeWhile isTokenChar) = 3 := by decide +kernel
  exact ⟨hfits, hplace, span, hspan,
    hmarks.mpr ⟨utf8Len_eq_length_iff.mp hbefore, fun _ => utf8Len_eq_length_iff.mp htoken⟩⟩

/-- Behind an accented character the label of a name is drawn one character too far to the
    right: in `c = 'é'; nope + 1` it stands under `ope `. -/
theorem accentedLine_mismarked :
    (LineTable.ofSource "c = 'é'; nope + 1").Places 1 11 (utf8Len "c = 'é'; ".toList) ∧
      ofLocation "c = 'é'; nope + 1" ⟨"accented.qz", 1, 11⟩ = .ok ⟨10, 14⟩ ∧
      "c = 'é'; nope + 1".toList[9]? = some 'n' ∧
      ¬ Marks "c = 'é'; nope + 1".toList 9 ⟨10, 14⟩ := by
  refine ⟨⟨by decide, by decide, ⟨0, rfl, by decide +kernel⟩, nofun, fun _ => by decide +kernel⟩,
    by decide +kernel, rfl, ?_⟩
  intro hmarks
  cases hmarks.start

end Span

end UnionTyping
