/-
  LineBasic.Proofs.ScanFaults

  What a fault in a text tells about it.  A stretch of text still stands where it does
  when the text behind it is cut short, so everything in front of a fault can be scanned
  by itself, and the tokens found there are the ones in the journal.  The fault is at the
  place it names: a character that starts nothing, or a quote behind which every other
  quote is escaped.
-/

import LineBasic.Proofs.DeskWork
import LineBasic.Proofs.Splicing

namespace LineBasic

-- ============================================================================
-- Texts cut short
-- ============================================================================

theorem Longest.cut {kind : List Char → Prop} {raw rest more : List Char}
    (h : Longest kind raw (rest ++ more)) : Longest kind raw rest := by
  refine ⟨h.1, fun longer hkind hfront => h.2 longer hkind ?_⟩
  rw [← List.append_assoc]
  exact hfront.trans (List.prefix_append _ _)

/-- A stretch of text stays what it is when the text behind it is cut short. -/
theorem Segment.Stands.cut {seg : Segment} {left more : List Char}
    (h : seg.Stands (left ++ more)) : seg.Stands left := by
  cases h with
  | blank hblank => exact .blank hblank
  | comment line => exact .comment line.cut
  | newline => exact .newline
  | text quotes => exact .text quotes
  | number longest numeral => exact .number longest.cut numeral
  | remark longest rem line =>
    rw [← List.append_assoc] at longest
    exact .remark longest.cut rem line.cut
  | keyword longest other spelt => exact .keyword longest.cut other spelt
  | name longest none_ => exact .name longest.cut none_
  | mark longest => exact .mark longest.cut

/-- A scan that fails has dissected the text in front of the fault. -/
theorem Scan.exists_dissection_of_fault {pos : Position} {cs : List Char} {e : ScanError}
    (h : (run pos cs).fault = some e) (before : List Char) (hpos : pos = .behind before) :
    ∃ front c rest segs, cs = front ++ c :: rest ∧ Dissection front segs ∧
      (run pos cs).tokens = stamped before segs ∧
      Segment.read (.behind (before ++ front)) c rest = .error e := by
  fun_induction run pos cs generalizing before with
  | case1 pos => cases h
  | case2 pos c rest fault hread =>
    obtain rfl := Option.some.inj h
    subst hpos
    exact ⟨[], c, rest, [], rfl, .nil, rfl, by rw [List.append_nil]; exact hread⟩
  | case3 pos c rest seg left hread scan ih =>
    subst hpos
    obtain ⟨htext, hstands⟩ := Segment.form_iff_stands.1 (Segment.read_eq_ok_iff.1 hread)
    obtain ⟨front, d, rest', segs, rfl, hsegs, htokens, hfault⟩ :=
      ih h (before ++ seg.raw) (Position.after_behind before seg.raw)
    refine ⟨seg.raw ++ front, d, rest', seg :: segs, ?_, .cons hstands.cut hsegs, ?_, ?_⟩
    · rw [List.append_assoc, htext]
    · rw [stamped, ← htokens]
    · rw [← List.append_assoc]
      exact hfault

-- ============================================================================
-- Places
-- ============================================================================

/-- Two different places in a text have different positions. -/
theorem Position.behind_take_inj {cs : List Char} {i j : Nat} (hi : i ≤ cs.length)
    (hj : j ≤ cs.length) (h : behind (cs.take i) = behind (cs.take j)) : i = j := by
  -- Of two offsets the greater one lies behind the other, and no place lies behind itself.
  have hlt : ∀ {i j}, i < j → j ≤ cs.length → behind (cs.take i) ≠ behind (cs.take j) := by
    intro i j hij hj heq
    have hsplit := List.take_append_drop i (cs.take j)
    rw [List.take_take, Nat.min_eq_left hij.le] at hsplit
    have hne : (cs.take j).drop i ≠ [] := by
      intro hnil
      have hlength := List.drop_eq_nil_iff.1 hnil
      rw [List.length_take] at hlength
      omega
    have hbefore := before_after (behind (cs.take i)) hne
    rw [after_behind, hsplit, ← heq] at hbefore
    unfold Before at hbefore
    omega
  rcases Nat.lt_trichotomy i j with hij | hij | hij
  · exact absurd h (hlt hij hj)
  · exact hij
  · exact absurd h.symm (hlt hij hi)

/-- A place in a text denotes one offset. -/
theorem Position.behind_take_eq_iff {front rest : List Char} {j : Nat}
    (hj : j ≤ (front ++ rest).length) :
    behind ((front ++ rest).take j) = behind front ↔ j = front.length := by
  have hfront : front.length ≤ (front ++ rest).length := by
    rw [List.length_append]
    omega
  constructor
  · intro h
    refine behind_take_inj hj hfront ?_
    rw [h, List.take_left]
  · rintro rfl
    rw [List.take_left]

-- ============================================================================
-- Escaped characters
-- ============================================================================

/-- Whether the character behind a text is escaped: from left to right, a backslash that is not
    escaped itself escapes the character behind it. -/
def escapes (cs : List Char) : Bool := cs.foldl (fun escaped c => !escaped && c = '\\') false

theorem escapes_cons {c : Char} (h : c ≠ '\\') (cs : List Char) :
    escapes (c :: cs) = escapes cs := by
  simp [escapes, h]

theorem escapes_slash (c : Char) (cs : List Char) : escapes ('\\' :: c :: cs) = escapes cs := by
  simp [escapes]

/-- A quote is left open exactly if all quotes behind it are escaped. -/
theorem Segment.closeQuote?_eq_none_iff {cs : List Char} :
    closeQuote? cs = none ↔ ∀ inner left, cs = inner ++ '"' :: left → escapes inner = true := by
  fun_induction closeQuote? cs with
  | case1 =>
    refine iff_of_true rfl fun inner left h => ?_
    cases inner with
    | nil => cases h
    | cons d inner => cases h
  | case2 rest =>
    refine iff_of_false (Option.some_ne_none _) fun h => ?_
    exact absurd (h [] rest rfl) (by decide)
  | case3 =>
    refine iff_of_true rfl fun inner left h => ?_
    cases inner with
    | nil => exact absurd (List.cons.inj h).1 (by decide)
    | cons d inner =>
      have htail := (List.cons.inj h).2
      cases inner with
      | nil => cases htail
      | cons e inner => cases htail
  | case4 c rest ih =>
    rw [Option.map_eq_none_iff, ih]
    constructor
    · intro h inner left heq
      cases inner with
      | nil => exact absurd (List.cons.inj heq).1 (by decide)
      | cons d inner =>
        obtain ⟨rfl, htail⟩ := List.cons.inj heq
        cases inner with
        | nil => decide
        | cons e inner =>
          obtain ⟨rfl, hrest⟩ := List.cons.inj htail
          rw [escapes_slash]
          exact h inner left hrest
    · intro h inner left heq
      have hescapes := h ('\\' :: c :: inner) left (by rw [heq]; rfl)
      rwa [escapes_slash] at hescapes
  | case5 c rest hquote hend hslash ih =>
    -- A backslash takes the character behind it along, so this one is none.
    have hplain : c ≠ '\\' := by
      intro hc
      cases rest with
      | nil => exact hend hc rfl
      | cons d rest => exact hslash d rest hc rfl
    rw [Option.map_eq_none_iff, ih]
    constructor
    · intro h inner left heq
      cases inner with
      | nil => exact absurd (List.cons.inj heq).1 hquote
      | cons d inner =>
        obtain ⟨rfl, hrest⟩ := List.cons.inj heq
        rw [escapes_cons hplain]
        exact h inner left hrest
    · intro h inner left heq
      have hescapes := h (c :: inner) left (by rw [heq]; rfl)
      rwa [escapes_cons hplain] at hescapes

-- ============================================================================
-- Stray characters
-- ============================================================================

/-- No symbol starts with a character that is none by itself. -/
theorem Symbol.head?_spelling_ne {c : Char} (h : ofChar? c = none) (s : Symbol) :
    s.spelling.toList.head? ≠ some c := by
  rcases s.spelling_marks with ⟨d, hd, hmark, -⟩ | ⟨d, d', hd, hmark⟩
  · rw [hd]
    rintro heq
    obtain rfl := Option.some.inj heq
    rw [h] at hmark
    cases hmark
  · rw [hd]
    rintro heq
    obtain rfl := Option.some.inj heq
    obtain ⟨s', hs'⟩ := Segment.exists_ofChar?_of_ofPair? hmark
    rw [h] at hs'
    cases hs'

/-- The character starts nothing: it is no blank, no newline, no quote and no apostrophe, and
    neither a word nor a number nor a symbol starts with it. -/
structure StartsNothing (c : Char) : Prop where
  special : c ∉ [' ', '\t', '\r', '\n', '"', '\'']
  letter : c.isAlpha = false
  digit : c.isDigit = false
  symbol : ∀ s : Symbol, s.spelling.toList.head? ≠ some c

/-- No piece of a text starts with a stray character. -/
theorem Segment.startsNothing_of_isStray {c : Char} (h : isStray c = true) : StartsNothing c := by
  simp only [isStray, isBlank, Bool.not_eq_true', Bool.or_eq_false_iff, decide_eq_false_iff_not,
    Option.isSome_eq_false_iff, Option.isNone_iff_eq_none] at h
  obtain ⟨⟨⟨⟨⟨⟨hblank, hnewline⟩, hcomment⟩, hquote⟩, hdigit⟩, hletter⟩, hchar⟩ := h
  refine ⟨?_, hletter, hdigit, Symbol.head?_spelling_ne hchar⟩
  simp [hblank, hnewline, hcomment, hquote]

-- ============================================================================
-- Faults
-- ============================================================================

namespace Scan

/-- The fault `e` of a text lies at the offset `i`, and nothing in front of it is lost. -/
structure FaultAt (source : String) (e : ScanError) (i : Nat) : Prop where
  /-- The place of the fault is that of the offset, and of no other. -/
  place : ∀ j ≤ source.length, Position.behind (source.toList.take j) = e.pos ↔ j = i
  fits : e.pos.line < 2 ^ 32 ∧ e.pos.column < 2 ^ 32
  /-- An unexpected character stands there and starts nothing. -/
  stray : ∀ c p, e = .unexpectedChar c p → source.toList[i]? = some c ∧ StartsNothing c
  /-- A string that is not terminated starts there, and every quote behind is escaped. -/
  unclosed : ∀ p, e = .unterminatedString p → source.toList[i]? = some '"' ∧
    ∀ inner left, source.toList.drop (i + 1) = inner ++ '"' :: left → escapes inner = true
  /-- The text in front of the fault has tokens.  At any desk these are what has been written
      down of the whole text, but for the end of the text. -/
  before : ∃ ts, tokenize (String.ofList (source.toList.take i)) = .ok (ts ++ [⟨.eof, "", e.pos⟩]) ∧
    (∀ desk : Desk, (workOn source).run.run ([], desk)
      = (.error e, ts, desk.enterAll (ts.map fun t => .record t.record))) ∧
    ((workOn source).run.run ([], .ofJournal (.into .unbounded))).2.2.journal.received
      = transcript (ts.map Token.record)

/-- What a scan that fails has written down. -/
theorem run_workOn_of_error {source : String} {e : ScanError} (h : tokenize source = .error e)
    (desk : Desk) :
    (workOn source).run.run ([], desk)
      = (.error e, (Scan.of source).tokens,
        desk.enterAll ((Scan.of source).tokens.map fun t => .record t.record)) := by
  rw [run_workOn]
  exact Prod.ext h rfl

/-- A journal with room enough receives the records of all tokens. -/
theorem received_enterAll_records (ts : List Token) :
    ((Desk.ofJournal (.into .unbounded)).enterAll
      (ts.map fun t => .record t.record)).journal.received = transcript (ts.map Token.record) := by
  have hlines : (ts.map fun t => Journal.Entry.record t.record).filterMap Journal.Entry.line?
      = ts.map Token.record := by
    rw [List.filterMap_map]
    exact congrFun (List.filterMap_eq_map (f := Token.record)) ts
  rw [Desk.journal_enterAll, hlines]
  exact Journal.received_after_unbounded _

/-- A text that has no tokens has a fault at one place, which is what the fault says it is, and
    everything in front of it has been scanned and written down. -/
theorem exists_faultAt {source : String} {e : ScanError} (hsize : source.length < 2 ^ 32)
    (h : tokenize source = .error e) : ∃ i, FaultAt source e i := by
  obtain ⟨front, c, rest, segs, htext, hsegs, htokens, hread⟩ :=
    exists_dissection_of_fault (result_eq_error_iff.1 h) [] rfl
  have hcause := Segment.read_eq_error_iff.1 hread
  have hpos : e.pos = .behind front := by
    rcases hcause with ⟨-, -, rfl⟩ | ⟨-, rfl⟩
    · rfl
    · rfl
  have htake : source.toList.take front.length = front := by rw [htext, List.take_left]
  have hchar : source.toList[front.length]? = some c := by
    rw [htext, List.getElem?_append_right (Nat.le_refl _), Nat.sub_self]
    rfl
  refine ⟨front.length, ?_, ?_, ?_, ?_, stamped [] segs, ?_, ?_, ?_⟩
  · intro j hj
    rw [← String.length_toList, htext] at hj
    rw [hpos, htext]
    exact Position.behind_take_eq_iff hj
  · rw [← String.length_toList, htext, List.length_append, List.length_cons] at hsize
    rw [hpos]
    exact Position.behind_lt (by omega)
  · rintro ch p rfl
    rcases hcause with ⟨-, -, heq⟩ | ⟨hstray, heq⟩
    · cases heq
    · cases heq
      exact ⟨hchar, Segment.startsNothing_of_isStray hstray⟩
  · rintro p rfl
    rcases hcause with ⟨rfl, hopen, -⟩ | ⟨-, heq⟩
    · refine ⟨hchar, ?_⟩
      rw [htext, ← List.drop_drop, List.drop_left]
      exact Segment.closeQuote?_eq_none_iff.1 hopen
    · cases heq
  · rw [htake, hpos, tokenize_eq_ok_iff, String.toList_ofList]
    exact hsegs.scans []
  · intro desk
    rw [run_workOn_of_error h, show (Scan.of source).tokens = _ from htokens]
  · rw [run_workOn_of_error h, show (Scan.of source).tokens = _ from htokens]
    exact received_enterAll_records _

/-- A question mark starts nothing, and an escaped quote closes nothing. -/
theorem exists_faultAt_stray_and_open :
    ("5 ?".length < 2 ^ 32 ∧ tokenize "5 ?" = .error (.unexpectedChar '?' ⟨1, 3⟩) ∧
      ∃ i, FaultAt "5 ?" (.unexpectedChar '?' ⟨1, 3⟩) i) ∧
    ("5\n \"\\\"é".length < 2 ^ 32 ∧
      tokenize "5\n \"\\\"é" = .error (.unterminatedString ⟨2, 2⟩) ∧
      ∃ i, FaultAt "5\n \"\\\"é" (.unterminatedString ⟨2, 2⟩) i) := by
  have hshort : "5 ?".length < 2 ^ 32 := by decide +kernel
  have hstray : tokenize "5 ?" = .error (.unexpectedChar '?' ⟨1, 3⟩) := by decide +kernel
  have hshort' : "5\n \"\\\"é".length < 2 ^ 32 := by decide +kernel
  have hopen : tokenize "5\n \"\\\"é" = .error (.unterminatedString ⟨2, 2⟩) := by decide +kernel
  exact ⟨⟨hshort, hstray, exists_faultAt hshort hstray⟩, hshort', hopen,
    exists_faultAt hshort' hopen⟩

end Scan

end LineBasic
