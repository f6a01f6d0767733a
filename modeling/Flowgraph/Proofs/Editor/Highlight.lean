import Flowgraph.Editor.Highlight
import Flowgraph.Proofs.Token.Modes
import Mathlib.Data.Prod.Lex

/-! # Highlights on the wire

Tokens follow one another in a text, and so do the pieces of one token. Places are
therefore sent as distances that no word is too small for, and an editor that adds
them up gets the pieces back.
-/

namespace Flowgraph.Editor

/-! ## Pieces of a text -/

/-- Places are in order of their lines, and on one line in order of their columns. -/
def Highlight.place (h : Highlight) : Nat ×ₗ Nat := toLex (h.line, h.start)

/-- The highlight and all numbers that describe it stay below `n`. -/
structure Highlight.Below (n : Nat) (h : Highlight) : Prop where
  extent : h.line + h.start + h.length < n
  type : h.type < n
  modifiers : h.modifiers < n

/-- The pieces stand in order between two places, and each ends before the next starts. -/
inductive Spans (n : Nat) : Nat ×ₗ Nat → List Highlight → Nat ×ₗ Nat → Prop
  | nil {a b : Nat ×ₗ Nat} : a ≤ b → Spans n a [] b
  | cons {a b c : Nat ×ₗ Nat} {h : Highlight} {hs : List Highlight} :
    a ≤ h.place → h.place < b → h.Below n → Spans n b hs c → Spans n a (h :: hs) c

namespace Spans

variable {n : Nat} {a b c : Nat ×ₗ Nat} {hs hs' : List Highlight}

theorem le (h : Spans n a hs b) : a ≤ b := by
  induction h with
  | nil hab => exact hab
  | cons ha hb _ _ ih => exact ha.trans (hb.le.trans ih)

theorem mono_left (hab : a ≤ b) (h : Spans n b hs c) : Spans n a hs c := by
  cases h with
  | nil hbc => exact .nil (hab.trans hbc)
  | cons hb hc hn h => exact .cons (hab.trans hb) hc hn h

theorem append (h : Spans n a hs b) (h' : Spans n b hs' c) : Spans n a (hs ++ hs') c := by
  induction h with
  | nil hab => exact h'.mono_left hab
  | cons ha hb hn _ ih => exact .cons ha hb hn (ih h')

theorem le_place (h : Spans n a hs b) : ∀ q ∈ hs, a ≤ q.place := by
  induction h with
  | nil => simp
  | cons ha hb _ _ ih =>
    rintro q (_ | ⟨_, hq⟩)
    · exact ha
    · exact ha.trans (hb.le.trans (ih q hq))

theorem pairwise (h : Spans n a hs b) : hs.Pairwise (·.place < ·.place) := by
  induction h with
  | nil => exact .nil
  | cons _ hb _ h ih => exact .cons (fun q hq => hb.trans_le (h.le_place q hq)) ih

end Spans

theorem width_append (cs ds : List Char) : width (cs ++ ds) = width cs + width ds := by
  induction cs with
  | nil => simp [width]
  | cons c cs ih => simp [width, ih, Nat.add_assoc]

theorem units_pos (c : Char) : 0 < units c := by
  unfold units
  split <;> decide

theorem width_head_le {cs piece : List Char} {lines : List (List Char)}
    (h : cs.splitOnP (· = '\n') = piece :: lines) : width piece ≤ width cs := by
  induction cs generalizing piece lines with
  | nil => simp_all
  | cons c cs ih =>
    obtain ⟨piece', lines', hcs⟩ := List.exists_cons_of_ne_nil (List.splitOnP_ne_nil (· = '\n') cs)
    rw [List.splitOnP_cons_eq_if_modifyHead, hcs] at h
    split at h <;> obtain ⟨rfl, -⟩ := List.cons.inj h
    · exact Nat.zero_le _
    · exact Nat.add_le_add_left (ih hcs) _

section Pieces

variable {type modifiers line start : Nat} {cs : List Char}

/-- The pieces of all lines but the first. -/
def laterPieces (type modifiers line : Nat) (lines : List (List Char)) : List Highlight :=
  lines.zipIdx.filterMap fun (piece, i) =>
    if width piece = 0 then none else some ⟨line + 1 + i, 0, width piece, type, modifiers⟩

theorem pieces_eq {piece : List Char} {lines : List (List Char)}
    (h : cs.splitOnP (· = '\n') = piece :: lines) : pieces type modifiers line start cs =
      (if width piece = 0 then [] else [⟨line, start, width piece, type, modifiers⟩]) ++
        laterPieces type modifiers line lines := by
  have hlater : (lines.zipIdx 1).filterMap (fun (q, i) => if width q = 0 then none
      else some ⟨line + i, if i = 0 then start else 0, width q, type, modifiers⟩) =
      laterPieces type modifiers line lines := by
    simp [laterPieces, List.zipIdx_succ, List.filterMap_map, Function.comp_def, Nat.add_comm,
      Nat.add_left_comm]
  rw [pieces, h, List.zipIdx_cons, List.filterMap_cons, ← hlater]
  split <;> simp_all

theorem pieces_newline : pieces type modifiers line start ('\n' :: cs) =
    pieces type modifiers (line + 1) 0 cs := by
  have hcs : ('\n' :: cs).splitOnP (· = '\n') = [] :: cs.splitOnP (· = '\n') := by
    simp [List.splitOnP_cons_eq_if_modifyHead]
  rw [pieces_eq hcs]
  simp [pieces, laterPieces, width]

theorem pieces_cons (type modifiers line start : Nat) (cs : List Char) {c : Char} (hc : c ≠ '\n') :
    ∃ length rest, length ≤ width cs ∧
    pieces type modifiers line start (c :: cs) =
      ⟨line, start, units c + length, type, modifiers⟩ :: rest ∧
    (length = 0 ∧ pieces type modifiers line (start + 1) cs = rest ∨
      pieces type modifiers line (start + 1) cs =
        ⟨line, start + 1, length, type, modifiers⟩ :: rest) := by
  obtain ⟨piece, lines, hcs⟩ := List.exists_cons_of_ne_nil (List.splitOnP_ne_nil (· = '\n') cs)
  have hcons : (c :: cs).splitOnP (· = '\n') = (c :: piece) :: lines := by
    simp [List.splitOnP_cons_eq_if_modifyHead, hc, hcs]
  have hw : width (c :: piece) ≠ 0 := Nat.ne_of_gt (Nat.add_pos_left (units_pos c) _)
  refine ⟨width piece, laterPieces type modifiers line lines, width_head_le hcs, ?_, ?_⟩
  · rw [pieces_eq hcons, if_neg hw]
    rfl
  · rw [pieces_eq hcs]
    by_cases h0 : width piece = 0 <;> simp [h0]

end Pieces

/-! ## Tokens of a text -/

/-- The position is at this place in the way editors count, from zero on. -/
structure At (p : Position) (line start : Nat) : Prop where
  line : p.line = line + 1
  column : p.column = start + 1

theorem spans_pieces {n type modifiers line start : Nat} {p : Position} {cs : List Char}
    (ht : type < n) (hm : modifiers < n) (h : At p line start) (hn : line + start + width cs < n) :
    ∃ line' start', At (p.advance cs) line' start' ∧
      line' + start' ≤ line + start + width cs ∧
      Spans n (toLex (line, start)) (pieces type modifiers line start cs)
        (toLex (line', start')) := by
  induction cs generalizing p line start with
  | nil => exact ⟨line, start, h, by simp [width], .nil le_rfl⟩
  | cons c cs ih =>
    have hu := units_pos c
    rw [width] at hn ⊢
    by_cases hc : c = '\n'
    · subst hc
      have hstep : At (p.step '\n') (line + 1) 0 := ⟨by simp [Position.step, h.line], rfl⟩
      obtain ⟨line', start', h', hle, hs⟩ := ih hstep (by omega)
      refine ⟨line', start', h', by omega, ?_⟩
      rw [pieces_newline]
      exact hs.mono_left (Prod.Lex.toLex_le_toLex.mpr (.inl (by simp)))
    · have hstep : At (p.step c) line (start + 1) :=
        ⟨by simp [Position.step, hc, h.line], by simp [Position.step, hc, h.column]⟩
      obtain ⟨line', start', h', hle, hs⟩ := ih hstep (by omega)
      refine ⟨line', start', h', by omega, ?_⟩
      have hlt : toLex (line, start) < toLex (line, start + 1) :=
        Prod.Lex.toLex_lt_toLex.mpr (.inr (by simp))
      obtain ⟨length, rest, hlength, heq, hrest⟩ := pieces_cons type modifiers line start cs hc
      have hbelow : Highlight.Below n ⟨line, start, units c + length, type, modifiers⟩ :=
        ⟨by simp only; omega, ht, hm⟩
      rw [heq]
      obtain ⟨-, hrest⟩ | hrest := hrest <;> rw [hrest] at hs
      · exact .cons le_rfl hlt hbelow hs
      · obtain _ | ⟨-, hb, -, hs⟩ := hs
        exact .cons le_rfl (hlt.trans hb) hbelow hs

theorem typeIndex_lt (name : String) : typeIndex name < 12 := by
  have : highlightTypes.findIdx (· = name) ≤ 11 := List.findIdx_le_length
  unfold typeIndex
  split <;> omega

theorem classifyName_lt (name : String) (previous : Option Token) :
    (classifyName name previous).2 < 2 := by
  unfold classifyName
  repeat' split
  all_goals simp [declarationBit]

theorem classify_lt {t : Token} {previous : Option Token} {type : String} {modifiers : Nat}
    (h : classify t previous = some (type, modifiers)) : modifiers < 2 := by
  have hname := classifyName_lt t.text previous
  unfold classify at h
  split at h <;> simp_all
  all_goals omega

theorem spans_highlightToken {n line start : Nat} {p : Position} (kind : TokenKind)
    {taken : List Char} (previous : Option Token) (h : At p line start)
    (hn : line + start + width taken < n) (htypes : 12 ≤ n) :
    ∃ line' start', At (p.advance taken) line' start' ∧
      line' + start' ≤ line + start + width taken ∧
      Spans n (toLex (line, start)) (highlightToken ⟨kind, String.ofList taken, p⟩ previous)
        (toLex (line', start')) := by
  unfold highlightToken
  split
  · have hpos : 0 < n := by omega
    obtain ⟨line', start', h', hle, hs⟩ := spans_pieces hpos hpos h hn
    exact ⟨line', start', h', hle, .nil hs.le⟩
  · next type modifiers hclass =>
    have htype := (typeIndex_lt type).trans_le htypes
    have hmodifiers : modifiers < n := by have := classify_lt hclass; omega
    simpa [h.line, h.column] using spans_pieces htype hmodifiers h hn

/-- Every rule takes its characters from the front of the text, so tokens follow each other. -/
theorem spans_highlightTokens {n line start : Nat} {p : Position} {cs : List Char} {fuel : Nat}
    {modes : List Lexer.Mode} (previous : Option Token) (h : At p line start)
    (hn : line + start + width cs < n) (htypes : 12 ≤ n) :
    ∃ b, Spans n (toLex (line, start))
      (highlightTokens previous (Lexer.scanFrom fuel modes p cs).1) b := by
  fun_induction Lexer.scanFrom fuel modes p cs generalizing line start previous with
  | case1 modes p => exact ⟨_, .nil le_rfl⟩
  | case2 modes p cs hcs => exact ⟨_, .nil le_rfl⟩
  | case3 fuel modes p cs hcs hm => exact ⟨_, .nil le_rfl⟩
  | case4 fuel modes p cs hcs rule taken hm tokens error htokens ih =>
    obtain ⟨hrule, rfl, -⟩ := Lexer.firstMatch_mem hm
    obtain ⟨rest, hrest⟩ := Lexer.take_prefix hrule cs
    have hw : width cs = width (rule.take cs) + width rest := by rw [← width_append, hrest]
    have htaken : line + start + width (rule.take cs) < n := by omega
    obtain ⟨line', start', h', hle, hs⟩ := spans_highlightToken rule.kind previous h htaken htypes
    have hdrop : (rule.take cs ++ rest).drop (rule.take cs).length = rest := List.drop_left
    rw [hrest] at hdrop
    rw [htokens, hdrop] at ih
    obtain ⟨b, hb⟩ := ih _ h' (by omega)
    exact ⟨b, hs.append hb⟩

theorem spans_highlight {n : Nat} (file source : String) (hn : width source.toList < n)
    (htypes : 12 ≤ n) :
    ∃ b, Spans n (toLex (0, 0)) (highlight file source) b :=
  spans_highlightTokens none ⟨rfl, rfl⟩ (by omega) htypes

/-! ## Distances -/

/-- The numbers that describe the pieces, where places are given by exact distances. -/
def distancesFrom (line start : Int) : List Highlight → List Int
  | [] => []
  | h :: rest =>
    [h.line - line, if h.line = line then h.start - start else h.start, h.length, h.type,
      h.modifiers] ++ distancesFrom h.line h.start rest

/-- How an editor reads the numbers: a line further down counts columns anew. -/
def decodeFrom (line start : Nat) : List UInt32 → Option (List Highlight)
  | [] => some []
  | down :: right :: length :: type :: modifiers :: rest =>
    let line' := line + down.toNat
    let start' := if down = 0 then start + right.toNat else right.toNat
    (decodeFrom line' start' rest).map
      (⟨line', start', length.toNat, type.toNat, modifiers.toNat⟩ :: ·)
  | _ => none

def decode (data : List UInt32) : Option (List Highlight) := decodeFrom 0 0 data

theorem toNat_sub_ofNat {a b : Nat} (hab : a ≤ b) (hb : b < UInt32.size) :
    (UInt32.ofNat b - UInt32.ofNat a).toNat = b - a := by
  rw [UInt32.toNat_sub, UInt32.toNat_ofNat_of_lt' hb,
    UInt32.toNat_ofNat_of_lt' (Nat.lt_of_le_of_lt hab hb)]
  unfold UInt32.size at hb
  omega

/-- The words hold the exact distances, and reading them gives the pieces back. -/
theorem encodeFrom_eq {line start : Nat} {hs : List Highlight} {b : Nat ×ₗ Nat}
    (h : Spans (UInt32.size) (toLex (line, start)) hs b) :
    (encodeFrom (.ofNat line) (.ofNat start) hs).map (fun w => (w.toNat : Int)) =
        distancesFrom line start hs ∧
      decodeFrom line start (encodeFrom (.ofNat line) (.ofNat start) hs) = some hs := by
  induction hs generalizing line start with
  | nil => exact ⟨rfl, rfl⟩
  | cons q hs ih =>
    obtain _ | ⟨hle, hlt, hbelow, h⟩ := h
    obtain ⟨hexact, hdecode⟩ := ih (h.mono_left hlt.le)
    have hextent := hbelow.extent
    have ofNat_toNat {m : Nat} (hm : m < UInt32.size) : (UInt32.ofNat m).toNat = m :=
      UInt32.toNat_ofNat_of_lt' hm
    have hstart := ofNat_toNat (m := q.start) (by omega)
    have hlength := ofNat_toNat (m := q.length) (by omega)
    have htype := ofNat_toNat hbelow.type
    have hmodifiers := ofNat_toNat hbelow.modifiers
    rw [Highlight.place, Prod.Lex.toLex_le_toLex] at hle
    simp only at hle
    by_cases hline : line = q.line
    · subst hline
      have hle : start ≤ q.start := by omega
      have hright := toNat_sub_ofNat hle (by omega)
      constructor
      · simp [encodeFrom, distancesFrom, hexact, hright, hlength, htype, hmodifiers]
        omega
      · simp [encodeFrom, decodeFrom, hdecode, hright, hlength, htype, hmodifiers, hle]
    · have hlt : line < q.line := by omega
      have hdown := toNat_sub_ofNat hlt.le (by omega)
      have hne : UInt32.ofNat q.line - UInt32.ofNat line ≠ 0 := by
        rw [ne_eq, ← UInt32.toNat_inj, hdown, UInt32.toNat_zero]
        omega
      have hadd : line + (q.line - line) = q.line := by omega
      constructor
      · simp [encodeFrom, distancesFrom, hexact, hne, hdown, hstart, hlength, htype, hmodifiers]
        omega
      · simp [encodeFrom, decodeFrom, hdecode, hdown, hne, hadd, hstart, hlength, htype, hmodifiers]

/-- The pieces of any text stand in strict order. In a text whose length, in the units
that editors count in, fits into a word, all distances do, and a reader that adds the
distances up gets exactly the pieces. -/
theorem highlight_survives_encoding (file source : String) :
    (highlight file source).Pairwise (·.place < ·.place) ∧
      (width source.toList < UInt32.size →
        (encode (highlight file source)).map (fun w => (w.toNat : Int)) =
            distancesFrom 0 0 (highlight file source) ∧
          decode (encode (highlight file source)) = some (highlight file source)) := by
  constructor
  · obtain ⟨b, h⟩ := spans_highlight (n := width source.toList + 12) file source (by omega)
      (by omega)
    exact h.pairwise
  · intro hsource
    obtain ⟨b, h⟩ := spans_highlight file source hsource (by decide)
    exact encodeFrom_eq h

/-- A string of three lines, one of them empty, is sent as two pieces. -/
theorem long_string_survives_encoding :
    highlight "" "a\n \"b\n\n c\"" =
        [⟨0, 0, 1, 3, 0⟩, ⟨1, 1, 1, 8, 0⟩, ⟨1, 2, 1, 8, 0⟩, ⟨3, 0, 2, 8, 0⟩, ⟨3, 2, 1, 8, 0⟩] ∧
      decode (encode (highlight "" "a\n \"b\n\n c\"")) =
        some (highlight "" "a\n \"b\n\n c\"") :=
  ⟨by decide +kernel, ((highlight_survives_encoding "" "a\n \"b\n\n c\"").2 (by decide)).2⟩

end Flowgraph.Editor
