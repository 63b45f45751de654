/-
  LineBasic.Proofs.Splicing

  Two texts with a line end between them.  No stretch of a text that was read to its end
  goes on behind a line end, so the texts are scanned one after the other: the tokens are
  those of the first text, the line end in place of the end of the text, and those of the
  second text as many lines further down.  A fault of the second text is found as many
  lines further down, and a stray character of the first text stays where it is.  All of
  these places fit into 32 bits if the whole text has less than `2 ^ 32 - 1` characters.
-/

import LineBasic.Proofs.Dissection

namespace LineBasic

-- ============================================================================
-- Stretches in front of a line end
-- ============================================================================

/-- A row of characters on one line that a text starts with, ends in front of the line end. -/
theorem InLine.ends_in_front {w cs more : List Char} (h : InLine w)
    (hw : w <+: cs ++ '\n' :: more) : w <+: cs := by
  rcases Nat.lt_or_ge cs.length w.length with hlt | hle
  · -- a longer row would hold the line end
    have hcs : cs ++ ['\n'] <+: cs ++ '\n' :: more :=
      (List.prefix_append_right_inj cs).2 (List.prefix_append ['\n'] more)
    have hlength : (cs ++ ['\n']).length ≤ w.length := by
      rw [List.length_append, List.length_singleton]
      omega
    have hfront := List.prefix_of_prefix_length_le hcs hw hlength
    exact absurd rfl (h '\n' (hfront.subset (by simp)))
  · exact List.prefix_of_prefix_length_le hw (List.prefix_append cs _) hle

theorem Longest.append_newline {kind : List Char → Prop} {raw rest : List Char}
    (inLine : ∀ cs, kind cs → InLine cs) (h : Longest kind raw rest) (more : List Char) :
    Longest kind raw (rest ++ '\n' :: more) := by
  refine ⟨h.1, fun longer hkind hfront => h.2 longer hkind ?_⟩
  rw [← List.append_assoc] at hfront
  exact (inLine longer hkind).ends_in_front hfront

theorem IsWord.inLine {cs : List Char} (h : IsWord cs) : InLine cs := by
  obtain ⟨c, more, rfl, first, hmore⟩ := h
  rintro d hd rfl
  rcases List.mem_cons.1 hd with rfl | hd
  · exact absurd first (by decide)
  · exact absurd (hmore _ hd) (by decide)

/-- Numbers stay within a line. -/
theorem IsNumber.inLine {cs : List Char} (h : IsNumber cs) : InLine cs := by
  obtain ⟨kind, hkind⟩ := h
  rintro d hd rfl
  rcases hkind.digits_or_dot.1 _ hd with hdigit | hdot
  · exact absurd hdigit (by decide)
  · exact absurd hdot (by decide)

theorem IsMark.inLine {cs : List Char} (h : IsMark cs) : InLine cs := by
  obtain ⟨s, rfl⟩ := h
  have hmarks : s.spelling.toList.all (· ≠ '\n') = true := by cases s <;> decide
  exact fun c hc => of_decide_eq_true (List.all_eq_true.1 hmarks c hc)

namespace Segment

variable {c : Char} {cs left : List Char} {seg : Segment}

/-- A stretch of text stays what it is when a line end and more follow the text. -/
theorem Stands.append_newline (h : seg.Stands left) (more : List Char) :
    seg.Stands (left ++ '\n' :: more) := by
  cases h with
  | blank hblank => exact .blank hblank
  | comment line => exact .comment (line.append_newline (fun _ => id) more)
  | newline => exact .newline
  | text quotes => exact .text quotes
  | number longest numeral =>
    exact .number (longest.append_newline (fun _ => IsNumber.inLine) more) numeral
  | remark longest rem line =>
    have hword := longest.append_newline (fun _ => IsWord.inLine) more
    rw [List.append_assoc] at hword
    exact .remark hword rem (line.append_newline (fun _ => id) more)
  | keyword longest other spelt =>
    exact .keyword (longest.append_newline (fun _ => IsWord.inLine) more) other spelt
  | name longest none_ =>
    exact .name (longest.append_newline (fun _ => IsWord.inLine) more) none_
  | mark longest => exact .mark (longest.append_newline (fun _ => IsMark.inLine) more)

/-- What is scanned in front of the end of a text is scanned the same in front of a new line. -/
theorem Form.append_newline (h : Form c cs seg left) (more : List Char) :
    Form c (cs ++ '\n' :: more) seg (left ++ '\n' :: more) := by
  obtain ⟨htext, hstands⟩ := form_iff_stands.1 h
  refine form_iff_stands.2 ⟨?_, hstands.append_newline more⟩
  rw [← List.append_assoc, htext, List.cons_append]

end Segment

-- ============================================================================
-- Scans further down
-- ============================================================================

/-- The place `n` lines further down. -/
def Position.down (n : Nat) (p : Position) : Position := ⟨p.line + n, p.column⟩

/-- The token `n` lines further down. -/
def Token.down (n : Nat) (t : Token) : Token := { t with pos := t.pos.down n }

/-- The fault `n` lines further down. -/
def ScanError.down (n : Nat) : ScanError → ScanError
  | unexpectedChar c p => unexpectedChar c (p.down n)
  | unterminatedString p => unterminatedString (p.down n)

/-- Places in lower lines move as they do further up. -/
theorem Position.down_advance (n : Nat) (p : Position) (c : Char) :
    (p.down n).advance c = (p.advance c).down n := by
  unfold advance
  split
  · exact congrArg (Position.mk · 1) (Nat.add_right_comm ..)
  · rfl

theorem Position.down_after (n : Nat) (p : Position) (cs : List Char) :
    (p.down n).after cs = (p.after cs).down n := by
  induction cs generalizing p with
  | nil => rfl
  | cons c cs ih => rw [after_cons, after_cons, down_advance, ih]

/-- A piece in a lower line has the same token, in a lower line. -/
theorem Segment.tokenAt_down (n : Nat) (seg : Segment) (p : Position) :
    seg.tokenAt (p.down n) = (seg.tokenAt p).map (Token.down n) := by
  unfold tokenAt
  cases seg.token with
  | none => rfl
  | some face => rfl

theorem Segment.read_down {n : Nat} {p : Position} {c : Char} {rest : List Char} {e : ScanError}
    (h : read p c rest = .error e) : read (p.down n) c rest = .error (e.down n) := by
  rcases read_eq_error_iff.1 h with ⟨rfl, hopen, rfl⟩ | ⟨hstray, rfl⟩
  · exact read_of_open hopen
  · exact read_of_isStray hstray

namespace Scan

/-- Where a text starts, decides about the places and nothing else. -/
theorem run_down (n : Nat) (p : Position) (cs : List Char) :
    run (p.down n) cs =
      ⟨(run p cs).tokens.map (Token.down n), (run p cs).fault.map (ScanError.down n)⟩ := by
  fun_induction run p cs with
  | case1 p => rw [run]; rfl
  | case2 p c rest e hread => rw [run_of_error (Segment.read_down hread)]; rfl
  | case3 p c rest seg left hread scan ih =>
    have hform := Segment.read_eq_ok_iff.1 hread
    rw [run_of_form hform, Position.down_after, ih, Segment.tokenAt_down, List.map_append]
    cases seg.tokenAt p with
    | none => rfl
    | some t => rfl

-- ============================================================================
-- Scans over a line end
-- ============================================================================

/-- Behind a text that was read to its end the scan goes on with the line end and then with
    the second text. -/
theorem run_append_newline {pos : Position} {cs : List Char} {ts : List Token}
    (h : Scans pos cs ts) (more : List Char) :
    ∃ front, ts = front ++ [⟨.eof, "", pos.after cs⟩] ∧
      run pos (cs ++ '\n' :: more) =
        ⟨front ++ ⟨.newline, "\n", pos.after cs⟩ ::
            (run ((pos.after cs).advance '\n') more).tokens,
          (run ((pos.after cs).advance '\n') more).fault⟩ := by
  induction h with
  | @done pos =>
    refine ⟨[], rfl, ?_⟩
    have hform : Segment.Form '\n' more _ more := .newline rfl
    rw [List.nil_append, run_of_form hform]
    rfl
  | @segment pos c rest left seg ts form _ ih =>
    obtain ⟨front, rfl, hrun⟩ := ih
    have htext : pos.after (c :: rest) = (pos.after seg.raw).after left := by
      rw [← (Segment.form_iff_stands.1 form).1, Position.after_append]
    rw [htext]
    refine ⟨(seg.tokenAt pos).toList ++ front, (List.append_assoc ..).symm, ?_⟩
    rw [List.cons_append, run_of_form (form.append_newline more), hrun, List.append_assoc]

/-- A character that starts no segment is found whatever follows the text. -/
theorem fault_append_newline {pos : Position} {cs : List Char} {c : Char} {p : Position}
    (h : (run pos cs).fault = some (.unexpectedChar c p)) (more : List Char) :
    (run pos (cs ++ '\n' :: more)).fault = some (.unexpectedChar c p) := by
  fun_induction run pos cs with
  | case1 pos => cases h
  | case2 pos d rest e hread =>
    obtain rfl := Option.some.inj h
    rcases Segment.read_eq_error_iff.1 hread with ⟨-, -, heq⟩ | ⟨hstray, heq⟩
    · cases heq
    · rw [List.cons_append, run_of_error (Segment.read_of_isStray hstray), heq]
  | case3 pos d rest seg left hread scan ih =>
    have hform := Segment.read_eq_ok_iff.1 hread
    rw [List.cons_append, run_of_form (hform.append_newline more)]
    exact ih h

/-- A scan with a fault has the fault as its result. -/
theorem result_eq_error_iff {scan : Scan} {e : ScanError} :
    scan.result = .error e ↔ scan.fault = some e := by
  unfold result
  split
  · next h => simp [h]
  · next h => simp [h]

end Scan

/-- A scan names no place but those behind a part of the text that it has read. -/
theorem Scan.exists_behind {pos : Position} (before cs : List Char) (hpos : pos = .behind before) :
    (∀ t ∈ (run pos cs).tokens, ∃ front, front <+: cs ∧ t.pos = .behind (before ++ front)) ∧
      ∀ e, (run pos cs).fault = some e → ∃ front, front <+: cs ∧
        e.pos = .behind (before ++ front) := by
  have hhere : ∀ cs, ∃ front, front <+: cs ∧ pos = .behind (before ++ front) :=
    fun cs => ⟨[], List.nil_prefix, by rw [List.append_nil, hpos]⟩
  fun_induction run pos cs generalizing before with
  | case1 pos =>
    refine ⟨fun t ht => ?_, fun e he => by cases he⟩
    rw [List.mem_singleton.1 ht]
    exact hhere []
  | case2 pos c rest fault hread =>
    refine ⟨fun t ht => absurd ht List.not_mem_nil, fun e he => ?_⟩
    obtain rfl := Option.some.inj he
    rcases Segment.read_eq_error_iff.1 hread with ⟨-, -, rfl⟩ | ⟨-, rfl⟩
    · exact hhere _
    · exact hhere _
  | case3 pos c rest seg left hread scan ih =>
    obtain ⟨htext, -⟩ := Segment.form_iff_stands.1 (Segment.read_eq_ok_iff.1 hread)
    have hbehind : pos.after seg.raw = .behind (before ++ seg.raw) := by
      rw [hpos, Position.after_behind]
    obtain ⟨htokens, hfault⟩ := ih (before ++ seg.raw) hbehind fun cs =>
      ⟨[], List.nil_prefix, by rw [List.append_nil, hbehind]⟩
    -- A place in what is left is one in the whole, with the segment in front of it.
    have hfurther : ∀ {p : Position}, (∃ front, front <+: left ∧
        p = .behind (before ++ seg.raw ++ front)) →
        ∃ front, front <+: c :: rest ∧ p = .behind (before ++ front) := by
      rintro p ⟨front, hfront, rfl⟩
      refine ⟨seg.raw ++ front, ?_, by rw [List.append_assoc]⟩
      rw [← htext]
      exact (List.prefix_append_right_inj seg.raw).2 hfront
    refine ⟨fun t ht => ?_, fun e he => hfurther (hfault e he)⟩
    rcases List.mem_append.1 ht with ht | ht
    · rw [Segment.pos_of_tokenAt (Option.mem_toList.1 ht)]
      exact hhere _
    · exact hfurther (htokens t ht)

/-- In a text of less than `2 ^ 32 - 1` characters no line and no column of a token, the end of
    the text included, or of a fault is too great for 32 bits. -/
theorem tokenize_places_lt {source : String} (hsize : source.length + 1 < 2 ^ 32) :
    (∀ ts, tokenize source = .ok ts → ∀ t ∈ ts, t.pos.line < 2 ^ 32 ∧ t.pos.column < 2 ^ 32) ∧
      ∀ e, tokenize source = .error e → e.pos.line < 2 ^ 32 ∧ e.pos.column < 2 ^ 32 := by
  obtain ⟨htokens, hfault⟩ := Scan.exists_behind [] source.toList (rfl : Position.start = _)
  have hlt : ∀ {p : Position}, (∃ front, front <+: source.toList ∧ p = .behind ([] ++ front)) →
      p.line < 2 ^ 32 ∧ p.column < 2 ^ 32 := by
    rintro p ⟨front, hfront, rfl⟩
    have hlength := hfront.length_le
    rw [String.length_toList] at hlength
    exact Position.behind_lt (by rw [List.nil_append]; omega)
  constructor
  · intro ts hts t ht
    obtain ⟨-, rfl⟩ := Scan.result_eq_ok_iff.1 hts
    exact hlt (htokens t ht)
  · intro e he
    exact hlt (hfault e (Scan.result_eq_error_iff.1 he))

/-- The line below a text and a line end starts as many lines down as the text has lines. -/
theorem Position.advance_newline (cs : List Char) :
    (Position.start.after cs).advance '\n' = Position.start.down (1 + cs.count '\n') := by
  have hafter : Position.start.after cs = .behind cs := after_behind [] cs
  rw [hafter]
  exact congrArg (Position.mk · 1) (Nat.add_comm ..)

/-- What the scan of two texts with a line end between them comes to. -/
theorem Scan.of_append_newline {a : String} {ta : List Token} (b : String)
    (h : tokenize a = .ok ta) :
    ∃ front z, ta = front ++ [z] ∧ z.kind = .eof ∧
      Scan.of (a ++ "\n" ++ b) =
        ⟨front ++ ⟨.newline, "\n", z.pos⟩ ::
            (Scan.of b).tokens.map (Token.down (1 + a.toList.count '\n')),
          (Scan.of b).fault.map (ScanError.down (1 + a.toList.count '\n'))⟩ := by
  obtain ⟨front, hta, hrun⟩ := Scan.run_append_newline (tokenize_eq_ok_iff.1 h) b.toList
  refine ⟨front, _, hta, rfl, ?_⟩
  have htext : (a ++ "\n" ++ b).toList = a.toList ++ '\n' :: b.toList := by
    rw [String.toList_append, String.toList_append, List.append_assoc]
    rfl
  rw [Scan.of, htext, hrun, Position.advance_newline, Scan.run_down]
  rfl

/-- Texts are scanned line end by line end.  If the first text can be read, then it and the
    second one with a line end between them can be read exactly if the second one can, and the
    tokens, or the fault, are those of the second text below the first; a stray character of the
    first text is the fault of the whole.  No line or column wraps around in 32 bits if the whole
    has less than `2 ^ 32 - 1` characters. -/
theorem tokenize_append_newline (a b : String) :
    (∀ ta, tokenize a = .ok ta →
      ((∃ ts, tokenize (a ++ "\n" ++ b) = .ok ts) ↔ ∃ tb, tokenize b = .ok tb) ∧
      ∃ front z, ta = front ++ [z] ∧ z.kind = .eof ∧
        (∀ tb, tokenize b = .ok tb →
          tokenize (a ++ "\n" ++ b) = .ok (front ++ ⟨.newline, "\n", z.pos⟩ ::
            tb.map (Token.down (1 + a.toList.count '\n')))) ∧
        ∀ e, tokenize b = .error e →
          tokenize (a ++ "\n" ++ b) = .error (e.down (1 + a.toList.count '\n'))) ∧
    (∀ c p, tokenize a = .error (.unexpectedChar c p) →
      tokenize (a ++ "\n" ++ b) = .error (.unexpectedChar c p)) ∧
    ((a ++ "\n" ++ b).length + 1 < 2 ^ 32 →
      (∀ ts, tokenize (a ++ "\n" ++ b) = .ok ts →
        ∀ t ∈ ts, t.pos.line < 2 ^ 32 ∧ t.pos.column < 2 ^ 32) ∧
      ∀ e, tokenize (a ++ "\n" ++ b) = .error e →
        e.pos.line < 2 ^ 32 ∧ e.pos.column < 2 ^ 32) := by
  refine ⟨?_, ?_, tokenize_places_lt⟩
  · intro ta hta
    obtain ⟨front, z, hends, hz, hscan⟩ := Scan.of_append_newline b hta
    have hok : ∀ tb, tokenize b = .ok tb → tokenize (a ++ "\n" ++ b) = .ok (front ++
        ⟨.newline, "\n", z.pos⟩ :: tb.map (Token.down (1 + a.toList.count '\n'))) := by
      intro tb htb
      obtain ⟨hfault, rfl⟩ := Scan.result_eq_ok_iff.1 htb
      rw [tokenize, hscan, Scan.result_eq_ok_iff, hfault]
      exact ⟨rfl, rfl⟩
    have herror : ∀ e, tokenize b = .error e →
        tokenize (a ++ "\n" ++ b) = .error (e.down (1 + a.toList.count '\n')) := by
      intro e he
      rw [tokenize, hscan, Scan.result_eq_error_iff, Scan.result_eq_error_iff.1 he]
      rfl
    refine ⟨⟨?_, ?_⟩, front, z, hends, hz, hok, herror⟩
    · rintro ⟨ts, hts⟩
      cases hb : tokenize b with
      | ok tb => exact ⟨tb, rfl⟩
      | error e =>
        rw [herror e hb] at hts
        cases hts
    · rintro ⟨tb, htb⟩
      exact ⟨_, hok tb htb⟩
  · intro c p h
    have hfault : (Scan.run .start a.toList).fault = some (.unexpectedChar c p) :=
      Scan.result_eq_error_iff.1 h
    rw [tokenize, Scan.result_eq_error_iff, Scan.of, String.toList_append, String.toList_append,
      List.append_assoc]
    exact Scan.fault_append_newline hfault b.toList

/-- The tokens of a text that ends inside a remark. -/
def remarkTokens : List Token :=
  [⟨.integer, "10", ⟨1, 1⟩⟩, ⟨.newline, "\n", ⟨1, 4⟩⟩, ⟨.eof, "", ⟨1, 10⟩⟩]

/-- The tokens of a text with a string over two lines. -/
def stringTokens : List Token :=
  [⟨.integer, "20", ⟨1, 1⟩⟩, ⟨.text, "é\n", ⟨1, 4⟩⟩, ⟨.symbol .less, "<", ⟨2, 2⟩⟩, ⟨.eof, "", ⟨2, 3⟩⟩]

theorem tokenize_append_newline_remark :
    (tokenize "10 rem \"<" = .ok remarkTokens ∧ tokenize "20 \"é\n\"<" = .ok stringTokens ∧
      ∃ front z, remarkTokens = front ++ [z] ∧
        tokenize ("10 rem \"<" ++ "\n" ++ "20 \"é\n\"<") = .ok (front ++
          ⟨.newline, "\n", z.pos⟩ :: stringTokens.map (Token.down 1))) ∧
    tokenize ("10 rem \"<" ++ "\n" ++ "\"") = .error (.unterminatedString ⟨2, 1⟩) ∧
    tokenize ("10 ?" ++ "\n" ++ "\"") = .error (.unexpectedChar '?' ⟨1, 4⟩) := by
  have hremark : tokenize "10 rem \"<" = .ok remarkTokens := by decide +kernel
  have hstring : tokenize "20 \"é\n\"<" = .ok stringTokens := by decide +kernel
  have hopen : tokenize "\"" = .error (.unterminatedString ⟨1, 1⟩) := by decide +kernel
  have hstray : tokenize "10 ?" = .error (.unexpectedChar '?' ⟨1, 4⟩) := by decide +kernel
  obtain ⟨-, front, z, hends, -, hok, -⟩ := (tokenize_append_newline _ _).1 _ hremark
  obtain ⟨-, -, -, -, -, -, herror⟩ := (tokenize_append_newline _ "\"").1 _ hremark
  exact ⟨⟨hremark, hstring, front, z, hends, hok _ hstring⟩, herror _ hopen,
    (tokenize_append_newline _ _).2.1 _ _ hstray⟩

end LineBasic
