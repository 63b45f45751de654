/-
  LineBasic.Proofs.Resumption

  Reading again and again.  A reading leaves a cursor, and the next one goes on from
  there, whatever the tokens are: their last one need not end the text, and what they
  carry need not fit their kinds.  Two sorts of cursors stay where they are: one at the
  end of the text, from where nothing more is read, and one at a token that no line
  starts with, at which every further reading fails alike.
-/

import LineBasic.Proofs.Derivation
import LineBasic.Proofs.DeskWork

namespace LineBasic

-- ============================================================================
-- One reading
-- ============================================================================

/-- Reading lines leaves an end piece of the tokens, which starts with the end of the text
    unless the reading fails. -/
theorem readLines_leaves (ts : List Token) :
    (readLines ts).rest <:+ ts ∧
      ∀ ls, (readLines ts).outcome = .ok ls → headKind (readLines ts).rest = .eof := by
  fun_induction readLines ts with
  | case1 => exact ⟨List.suffix_refl _, fun _ _ => rfl⟩
  | case2 t us hnewline ih => exact ⟨ih.1.trans (List.suffix_cons t us), ih.2⟩
  | case3 t us heof => exact ⟨List.suffix_refl _, fun _ _ => heof⟩
  | case4 t us expected rest hrest => exact ⟨hrest, fun _ h => by cases h⟩
  | case5 t us number _ _ hnumber ss expected rest hrest =>
    exact ⟨hrest.trans (List.suffix_cons t us), fun _ h => by cases h⟩
  | case6 t us number _ _ hnumber ss _ rest hrest hread later hnewline heof ih =>
    refine ⟨(ih.1.trans hrest).trans (List.suffix_cons t us), fun ls hls => ?_⟩
    cases houtcome : later.outcome with
    | error expected =>
      rw [houtcome] at hls
      cases hls
    | ok ls => exact ih.2 ls houtcome

/-- A text is at its end if nothing is left or the end is next. -/
theorem headKind_eq_eof_iff {ts : List Token} :
    headKind ts = .eof ↔ ts = [] ∨ ∃ t us, ts = t :: us ∧ t.kind = .eof := by
  cases ts with
  | nil => exact iff_of_true rfl (.inl rfl)
  | cons t us =>
    constructor
    · exact fun h => .inr ⟨t, us, rfl, h⟩
    · rintro (h | ⟨u, vs, h, hkind⟩)
      · cases h
      · cases h
        exact hkind

namespace Program

/-- A reading goes forward. -/
theorem rest_read_suffix (c : Cursor) : (read c).cursor.rest <:+ c.rest :=
  (readLines_leaves c.rest).1

/-- A reading that succeeds comes to the end of the text. -/
theorem headKind_of_read_ok {c : Cursor} {p : Program} (h : (read c).outcome = .ok p) :
    headKind (read c).cursor.rest = .eof := by
  cases hlines : (readLines c.rest).outcome with
  | ok ls => exact (readLines_leaves c.rest).2 ls hlines
  | error expected =>
    rw [read, hlines] at h
    cases h

/-- A fault is that of the token at the cursor. -/
theorem of_read_error {c : Cursor} {e : ReadError} (h : (read c).outcome = .error e) :
    (readLines c.rest).outcome = .error e.expected ∧ e = (read c).cursor.fault e.expected := by
  cases hlines : (readLines c.rest).outcome with
  | ok ls =>
    rw [read, hlines] at h
    cases h
  | error expected =>
    have hfault : (read c).outcome = .error ((read c).cursor.fault expected) := by
      rw [read, hlines]
    rw [hfault] at h
    cases h
    exact ⟨rfl, rfl⟩

-- ============================================================================
-- Cursors that stay
-- ============================================================================

/-- At the end of the text nothing is read. -/
theorem read_at_end {c : Cursor} (h : headKind c.rest = .eof) : read c = ⟨[], .ok ⟨[]⟩, c⟩ := by
  obtain ⟨ts, endPos⟩ := c
  cases ts with
  | nil => rw [read, readLines]
  | cons t us =>
    have hkind : t.kind = .eof := h
    rw [read, readLines, hkind]

/-- The token bars the way to lines: none starts with it, and it stands neither between
    lines nor behind them. -/
def Bars (t : Token) : Prop :=
  t.kind ≠ .newline ∧ t.kind ≠ .eof ∧
    ¬ (t.kind = .integer ∧ ∃ n, Numeral.lineNumber? t.lexeme = some n)

/-- A token that bars the way is no line number. -/
theorem takeLineNumber_of_bars {t : Token} {us : List Token} (h : Bars t) (expected : Expected) :
    takeLineNumber expected (t :: us) = .error expected (t :: us) (List.suffix_refl _) := by
  rw [takeLineNumber]
  by_cases hkind : t.kind = .integer
  · cases hnumber : Numeral.lineNumber? t.lexeme with
    | none => rw [if_pos hkind]
    | some n => exact absurd ⟨hkind, n, hnumber⟩ h.2.2
  · rw [if_neg hkind]

/-- At a token that bars the way reading fails, and does not get past it. -/
theorem read_at_bar {c : Cursor} {t : Token} {us : List Token} (hrest : c.rest = t :: us)
    (h : Bars t) : read c = ⟨[], .error ⟨.lineNumber, t.kind, t.pos⟩, c⟩ := by
  obtain ⟨ts, endPos⟩ := c
  subst hrest
  have hlines : readLines (t :: us) = ⟨[], .error .lineNumber, t :: us⟩ := by
    rw [readLines, takeLineNumber_of_bars h]
    cases hkind : t.kind with
    | newline => exact absurd hkind h.1
    | eof => exact absurd hkind h.2.1
    | _ => rfl
  rw [read, hlines]
  rfl

-- ============================================================================
-- Many readings
-- ============================================================================

theorem length_readTimes (c : Cursor) (n : Nat) : (readTimes c n).length = n := by
  induction n generalizing c with
  | zero => rfl
  | succ n ih => rw [readTimes, List.length_cons, ih]

/-- What holds of readings that start behind a cursor, and is handed on from there, holds of
    every one of them. -/
theorem forall_mem_readTimes {P : Cursor → Prop} (hstep : ∀ c, P c → P (read c).cursor)
    (c : Cursor) (n : Nat) (hc : P c) : ∀ r ∈ readTimes c n, ∃ c', P c' ∧ r = read c' := by
  induction n generalizing c with
  | zero => exact fun r hr => absurd hr List.not_mem_nil
  | succ n ih =>
    intro r hr
    rw [readTimes, List.mem_cons] at hr
    cases hr with
    | inl hfirst => exact ⟨c, hc, hfirst⟩
    | inr hlater => exact ih (read c).cursor (hstep c hc) r hlater

/-- All readings behind a cursor go forward from there. -/
theorem rest_readTimes_suffix (c : Cursor) (n : Nat) :
    ∀ r ∈ readTimes c n, r.cursor.rest <:+ c.rest := by
  intro r hr
  obtain ⟨c', hc', rfl⟩ := forall_mem_readTimes (P := fun c' => c'.rest <:+ c.rest)
    (fun c' h => (rest_read_suffix c').trans h) c n (List.suffix_refl _) r hr
  exact (rest_read_suffix c').trans hc'

/-- From a cursor that stays every reading is the same. -/
theorem eq_of_mem_readTimes {c : Cursor} {n : Nat} {r : ProgramRead} (h : (read c).cursor = c)
    (hr : r ∈ readTimes c n) : r = read c := by
  obtain ⟨c', rfl, rfl⟩ := forall_mem_readTimes (P := fun c' => c' = c)
    (fun c' hc' => by rw [hc', h]) c n rfl r hr
  rfl

/-- At the end of the text every further reading finds nothing. -/
theorem readTimes_at_end {c : Cursor} {n : Nat} {r : ProgramRead} (hend : headKind c.rest = .eof)
    (hr : r ∈ readTimes c n) : r = ⟨[], .ok ⟨[]⟩, c⟩ := by
  have hread := read_at_end hend
  rw [eq_of_mem_readTimes (by rw [hread]) hr, hread]

/-- At a token that bars the way every further reading fails there. -/
theorem readTimes_at_bar {c : Cursor} {n : Nat} {r : ProgramRead} {t : Token} {us : List Token}
    (hrest : c.rest = t :: us) (hbars : Bars t) (hr : r ∈ readTimes c n) :
    r = ⟨[], .error ⟨.lineNumber, t.kind, t.pos⟩, c⟩ := by
  have hread := read_at_bar hrest hbars
  rw [eq_of_mem_readTimes (by rw [hread]) hr, hread]

/-- A reading starts where the one before it stopped. -/
theorem getElem?_succ_readTimes {c : Cursor} {n i : Nat} {r s : ProgramRead}
    (hr : (readTimes c n)[i]? = some r) (hs : (readTimes c n)[i + 1]? = some s) :
    s = read r.cursor := by
  induction n generalizing c i with
  | zero => cases hr
  | succ n ih =>
    rw [readTimes, List.getElem?_cons_succ] at hs
    cases i with
    | succ i =>
      rw [readTimes, List.getElem?_cons_succ] at hr
      exact ih hr hs
    | zero =>
      cases n with
      | zero => cases hs
      | succ n =>
        cases hr
        cases hs
        rfl

/-- Whatever holds between a reading and those that start from its cursor holds between any
    reading and any later one. -/
theorem pairwise_readTimes {R : ProgramRead → ProgramRead → Prop}
    (h : ∀ c n, ∀ s ∈ readTimes (read c).cursor n, R (read c) s) (c : Cursor) (n : Nat) :
    (readTimes c n).Pairwise R := by
  induction n generalizing c with
  | zero => exact .nil
  | succ n ih => exact .cons (h c n) (ih (read c).cursor)

/-- What becomes of calls that read one list of tokens on and on. -/
structure Resumes (tokens : List Token) (calls : List ProgramRead) : Prop where
  /-- No call leaves the tokens. -/
  within : ∀ r ∈ calls, r.cursor.rest <:+ tokens
  /-- No call goes back. -/
  forward : calls.Pairwise fun r s => s.cursor.rest <:+ r.cursor.rest
  /-- The first call starts in front, every other one where the last one stopped. -/
  start : ∀ r, calls[0]? = some r → r = read (.of tokens)
  next : ∀ i r s, calls[i]? = some r → calls[i + 1]? = some s → s = read r.cursor
  /-- A call that succeeds comes to the end of the text, or of the tokens. -/
  success : ∀ r ∈ calls, ∀ p, r.outcome = .ok p →
    r.cursor.rest = [] ∨ ∃ t us, r.cursor.rest = t :: us ∧ t.kind = .eof
  /-- A call that fails stops at the token that did not fit. -/
  failure : ∀ r ∈ calls, ∀ e, r.outcome = .error e →
    e.found = r.cursor.peek.kind ∧ e.pos = r.cursor.peek.pos
  /-- After a success there is nothing left, neither to read nor to record. -/
  done : calls.Pairwise fun r s => ∀ p, r.outcome = .ok p →
    s.outcome = .ok ⟨[]⟩ ∧ s.records = [] ∧ s.cursor = r.cursor
  /-- After a failure at a token that bars the way, that token is reported forever. -/
  stuck : calls.Pairwise fun r s => ∀ e t us, r.outcome = .error e → r.cursor.rest = t :: us →
    Bars t → s.outcome = .error ⟨.lineNumber, t.kind, t.pos⟩ ∧ s.records = [] ∧
      s.cursor = r.cursor

/-- Tokens can be read again and again, whatever they are.  Every call comes to an end, forward
    of the last one and within the tokens; calls stay at the end of the text, and they stay at a
    token that bars the way.  At a desk the calls come to the same, and the desk gets their
    records. -/
theorem readTimes_resumes (tokens : List Token) (n : Nat) :
    (readTimes (.of tokens) n).length = n ∧ Resumes tokens (readTimes (.of tokens) n) ∧
      ∀ desk : Desk, (readTimesAt (.of tokens) n).run desk
        = ((readTimes (.of tokens) n).map ProgramRead.outcome,
          desk.enterAll ((readTimes (.of tokens) n).flatMap fun r => r.records.map .record)) := by
  -- Every reading is the reading from some cursor.
  have hmem : ∀ r ∈ readTimes (.of tokens) n, ∃ c, True ∧ r = read c :=
    forall_mem_readTimes (fun _ _ => trivial) (.of tokens) n trivial
  refine ⟨length_readTimes _ n, ⟨?_, ?_, ?_, ?_, ?_, ?_, ?_, ?_⟩, ?_⟩
  · exact rest_readTimes_suffix (.of tokens) n
  · exact pairwise_readTimes (fun c k => rest_readTimes_suffix (read c).cursor k) _ n
  · intro r hr
    cases n with
    | zero => cases hr
    | succ n => cases hr; rfl
  · exact fun i r s hr hs => getElem?_succ_readTimes hr hs
  · intro r hr p hok
    obtain ⟨c, -, rfl⟩ := hmem r hr
    exact headKind_eq_eof_iff.1 (headKind_of_read_ok hok)
  · intro r hr e herror
    obtain ⟨c, -, rfl⟩ := hmem r hr
    rw [(of_read_error herror).2]
    exact ⟨rfl, rfl⟩
  · refine pairwise_readTimes (fun c k s hs p hok => ?_) _ n
    rw [readTimes_at_end (headKind_of_read_ok hok) hs]
    exact ⟨rfl, rfl, rfl⟩
  · refine pairwise_readTimes (fun c k s hs e t us _ hrest hbars => ?_) _ n
    rw [readTimes_at_bar hrest hbars hs]
    exact ⟨rfl, rfl, rfl⟩
  · intro desk
    rw [run_readTimesAt]
    simp only [numberedEntries_completed]

-- `10 END ten`, where the last token claims to be a number.
example :
    let ten : Token := ⟨.integer, "ten", ⟨1, 8⟩⟩
    (readTimes (.of [⟨.integer, "10", ⟨1, 1⟩⟩, ⟨.keyword .end_, "END", ⟨1, 4⟩⟩, ten]) 3).map
        (fun r => (r.records, r.outcome.map fun p => p.lines.length))
      = [(["line 10 EndStmt @ 1:4"], .error ⟨.lineEnd, .integer, ten.pos⟩),
        ([], .error ⟨.lineNumber, .integer, ten.pos⟩),
        ([], .error ⟨.lineNumber, .integer, ten.pos⟩)] := by decide +kernel

end Program

end LineBasic
