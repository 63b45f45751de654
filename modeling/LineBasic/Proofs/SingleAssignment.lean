/-
  LineBasic.Proofs.SingleAssignment

  Temporaries and slots of a generated function.  Temporaries are defined once each,
  in the order of their numbers, and used only behind their definition, in the same
  block and at the type they were defined with.  Every slot is made and set to zero
  in the entry block.  No label, temporary and slot share a name.
-/

import LineBasic.Proofs.ControlFlow

namespace LineBasic

-- ============================================================================
-- Definitions and uses
-- ============================================================================

/-- The temporaries that instructions define, with their types, in order. -/
def results (is : List Instr) : Known := is.filterMap Instr.result?

/-- Instructions define the temporaries that are free, one after the other. -/
theorem Flow.results {ok : Instr → Prop} {n n' : Nat} {known known' : Option Known}
    {es : List Emission} (h : Flow ok n known es n' known') :
    ∃ k, n' = n + k ∧
      (results (Emission.instrs es)).map Prod.fst = (List.range' n k).map Temp.mk := by
  induction h with
  | nil => exact ⟨0, rfl, rfl⟩
  | label _ ih => exact ih
  | note _ ih => exact ih
  | @define n known es n' known' site role i type hr _ _ _ ih =>
    obtain ⟨k, rfl, hmap⟩ := ih
    refine ⟨k + 1, by omega, ?_⟩
    have hcons : LineBasic.results (i :: Emission.instrs es)
        = (⟨n⟩, type) :: LineBasic.results (Emission.instrs es) := List.filterMap_cons_some hr
    rw [Emission.instrs_step, hcons, List.map_cons, hmap, List.range'_succ, List.map_cons]
  | @effect n known es n' known' site role i hr _ _ _ _ ih =>
    obtain ⟨k, rfl, hmap⟩ := ih
    refine ⟨k, rfl, ?_⟩
    rw [Emission.instrs_step, LineBasic.results, List.filterMap_cons_none hr]
    exact hmap
  | @close n known es n' known' site role i ht _ _ _ ih =>
    obtain ⟨k, rfl, hmap⟩ := ih
    refine ⟨k, rfl, ?_⟩
    -- A terminator has no result.
    have hr : i.result? = none := by
      cases hr : i.result? with
      | none => rfl
      | some r => exact absurd ht (by simp [Instr.isTerminator_of_result hr])
    rw [Emission.instrs_step, LineBasic.results, List.filterMap_cons_none hr]
    exact hmap

/-- What an instruction of a block uses has been defined in front of it in that block,
    or was known before. -/
theorem BlockBody.uses {known : Known} {is : List Instr} (h : BlockBody known is)
    {front back : List Instr} {i : Instr} (his : is = front ++ i :: back) :
    i.uses ⊆ results front ++ known := by
  induction h generalizing front with
  | @last known j _ hu =>
    obtain ⟨rfl, hj, -⟩ : front = [] ∧ j = i ∧ back = [] := by
      cases front with
      | nil => simpa using his
      | cons a front => simp at his
    exact hj ▸ hu
  | @cons known j is _ hu _ ih =>
    cases front with
    | nil =>
      obtain ⟨rfl, -⟩ := List.cons.inj his
      exact hu
    | cons a front =>
      obtain ⟨rfl, htail⟩ := List.cons.inj his
      refine List.Subset.trans (ih htail) ?_
      intro u hu
      rw [List.mem_append, List.mem_append] at hu
      rw [List.mem_append, results, List.mem_filterMap]
      rcases hu with hu | hu | hu
      · obtain ⟨b, hb, hr⟩ := List.mem_filterMap.1 hu
        exact .inl ⟨b, List.mem_cons_of_mem _ hb, hr⟩
      · exact .inl ⟨j, List.mem_cons_self .., by simpa using hu⟩
      · exact .inr hu

-- ============================================================================
-- Slots
-- ============================================================================

/-- The instructions that make slots and put zero into them. -/
def slotInstrs (names : List String) : List Instr :=
  names.flatMap fun name => [.alloca name, .store (.literal 0.0) name]

/-- The code of slots belongs to the block it stands in. -/
theorem cut_slotCode (names : List String) (es : List Emission) :
    Emission.cut (slotCode names ++ es)
      = (slotInstrs names ++ (Emission.cut es).1, (Emission.cut es).2) := by
  induction names with
  | nil => rfl
  | cons x names ih =>
    show Emission.cut (.step none _ :: .step none _ :: (slotCode names ++ es)) = _
    rw [Emission.cut, Emission.cut, ih]
    rfl

/-- No slot of another variable is touched. -/
theorem filter_slotInstrs_of_not_mem {names : List String} {x : String} (hx : x ∉ names) :
    (slotInstrs names).filter (fun i => x ∈ i.slots) = [] := by
  rw [List.filter_eq_nil_iff]
  intro i hi
  obtain ⟨y, hy, hi⟩ := List.mem_flatMap.1 hi
  have hne : x ≠ y := fun h => hx (h ▸ hy)
  simp only [List.mem_cons, List.not_mem_nil, or_false] at hi
  rcases hi with rfl | rfl <;> simpa [Instr.slots] using hne

/-- Every slot is made once and set to zero once, in that order. -/
theorem filter_slotInstrs {names : List String} (hnodup : names.Nodup) {x : String}
    (hx : x ∈ names) :
    (slotInstrs names).filter (fun i => x ∈ i.slots)
      = [.alloca x, .store (.literal 0.0) x] := by
  induction names with
  | nil => cases hx
  | cons y names ih =>
    rw [List.nodup_cons] at hnodup
    show ([Instr.alloca y, .store (.literal 0.0) y] ++ slotInstrs names).filter _ = _
    rw [List.filter_append]
    rcases List.mem_cons.1 hx with rfl | hmem
    · rw [filter_slotInstrs_of_not_mem hnodup.1]
      simp [Instr.slots]
    · have hne : x ≠ y := fun h => hnodup.1 (h ▸ hmem)
      rw [ih hnodup.2 hmem]
      simp [Instr.slots, hne]

/-- The variable whose slot an instruction makes, if it makes one. -/
def Instr.slotMade? : Instr → Option String
  | alloca x => some x
  | _ => none

theorem Instr.slotMade?_eq_none {i : Instr} (h : i.isAlloca = false) : i.slotMade? = none := by
  cases i <;> first | rfl | cases h

theorem slotMade_slotInstrs (names : List String) :
    (slotInstrs names).filterMap Instr.slotMade? = names := by
  induction names with
  | nil => rfl
  | cons x names ih => exact congrArg (x :: ·) ih

theorem instrs_slotCode (names : List String) :
    Emission.instrs (slotCode names) = slotInstrs names := by
  induction names with
  | nil => rfl
  | cons x names ih =>
    exact congrArg (fun is => .alloca x :: .store (.literal 0.0) x :: is) ih

/-- The slots that are made are those of the variables, in their order. -/
theorem MainCode.slotsMade {env : Env} {es : List Emission} {n : Nat} (h : MainCode env es n) :
    (Emission.instrs es).filterMap Instr.slotMade? = env.names.toList := by
  obtain ⟨last, rest, hes, -, -, hlast, hflow⟩ := h.split
  have hrest : (Emission.instrs rest).filterMap Instr.slotMade? = [] := by
    rw [List.filterMap_eq_nil_iff]
    exact fun i hi => Instr.slotMade?_eq_none (hflow.ok_of_mem hi).noAlloca
  rw [hes, Emission.instrs_label, Emission.instrs_append, Emission.instrs_step, instrs_slotCode,
    List.filterMap_append, slotMade_slotInstrs,
    List.filterMap_cons_none (Instr.slotMade?_eq_none hlast.noAlloca), hrest, List.append_nil]

/-- The blocks hold the instructions of the code. -/
theorem Emission.instrs_cut (es : List Emission) :
    (cut es).1 ++ (cut es).2.flatMap Block.instrs = instrs es := by
  fun_induction cut es with
  | case1 => rfl
  | case2 l es ih => simpa using ih
  | case3 _ s es ih => simpa using ih
  | case4 _ es ih => simpa using ih

theorem Ascending.nodup {s : Ascending String} : s.toList.Nodup :=
  s.sorted.imp fun {a b} hlt heq => by
    have hself : compare b b = .eq := Std.ReflCmp.compare_self
    rw [heq, hself] at hlt
    cases hlt

/-- The entry block makes the slots; no other block makes one. -/
theorem MainCode.entry {env : Env} {es : List Emission} {n : Nat} (h : MainCode env es n) :
    ∃ last rest, (Emission.cut es).2
        = ⟨.entry, slotInstrs env.names.toList ++ [last]⟩ :: rest ∧
      last.slots = [] ∧ ∀ b ∈ rest, ∀ i ∈ b.instrs, i.isAlloca = false := by
  obtain ⟨last, rest, rfl, hterm, -, -, hflow⟩ := h.split
  obtain ⟨hleft, -⟩ := hflow.cut rfl
  have hnil : (Emission.cut rest).1 = [] := hleft
  refine ⟨last, (Emission.cut rest).2, ?_, ?_, ?_⟩
  · rw [Emission.cut, cut_slotCode, Emission.cut, hnil]
  · cases last <;> first | rfl | cases hterm
  · intro b hb i hi
    refine (hflow.ok_of_mem ?_).noAlloca
    rw [← Emission.instrs_cut]
    exact List.mem_append_right _ (List.mem_flatMap.2 ⟨b, hb, hi⟩)

-- ============================================================================
-- Names
-- ============================================================================

/-- How a label is written where it is jumped to. -/
def Label.reference (l : Label) : String := "%" ++ l.text

theorem Label.toList_reference (l : Label) : l.reference.toList = '%' :: l.text.toList := by
  rw [reference, String.toList_append]
  rfl

theorem Temp.toList_text (t : Temp) : t.text.toList = '%' :: 't' :: Nat.toDigits 10 t.index := by
  show (toString "%t" ++ toString t.index).toList = _
  simp
  rfl

theorem toList_slotText (name : String) :
    (slotText name).toList = '%' :: (name.toList ++ ".addr".toList) := by
  show (toString "%" ++ toString name ++ toString ".addr").toList = _
  simp
  rfl

/-- Labels start with one of two letters, and neither is that of registers. -/
theorem Label.head_text (l : Label) :
    l.text.toList.head? = some 'e' ∨ l.text.toList.head? = some 'l' := by
  induction l using rec_part with
  | entry => exact .inl rfl
  | exit => exact .inl rfl
  | line n => exact .inr (by rw [toList_text_line]; rfl)
  | part owner p k ih =>
    rw [toList_text_part, List.head?_append]
    exact ih.imp (fun h => by rw [h]; rfl) fun h => by rw [h]; rfl

theorem dot_not_mem_digits (n : Nat) : '.' ∉ Nat.toDigits 10 n :=
  fun h => absurd (Label.isDigit_of_mem_digits h) (by decide)

/-- No label has a dot in it. -/
theorem Label.dot_not_mem_text (l : Label) : '.' ∉ l.text.toList := by
  induction l using rec_part with
  | entry => decide
  | exit => decide
  | line n =>
    rw [toList_text_line, List.mem_append, not_or]
    exact ⟨by decide, dot_not_mem_digits n⟩
  | part owner p k ih =>
    rw [toList_text_part, List.mem_append, List.mem_append, not_or, not_or]
    exact ⟨ih, by cases p <;> decide, dot_not_mem_digits k⟩

/-- Labels with the same reference are the same. -/
theorem Label.reference_injective : Function.Injective reference := by
  intro l l' h
  have hlist := congrArg String.toList h
  rw [toList_reference, toList_reference] at hlist
  exact text_injective (String.toList_inj.1 (List.cons.inj hlist).2)

/-- Registers with the same name are the same. -/
theorem Temp.text_injective : Function.Injective Temp.text := by
  intro t t' h
  have hlist := congrArg String.toList h
  rw [toList_text, toList_text] at hlist
  have hindex := Label.digits_inj (List.cons.inj (List.cons.inj hlist).2).2
  cases t
  cases t'
  exact congrArg Temp.mk hindex

/-- Slots with the same name belong to the same variable. -/
theorem slotText_injective : Function.Injective slotText := by
  intro x y h
  have hlist := congrArg String.toList h
  rw [toList_slotText, toList_slotText] at hlist
  exact String.toList_inj.1 (List.append_cancel_right (List.cons.inj hlist).2)

/-- No label is named like a register. -/
theorem Label.reference_ne_temp (l : Label) (t : Temp) : l.reference ≠ t.text := by
  intro h
  have hlist := congrArg String.toList h
  rw [toList_reference, Temp.toList_text] at hlist
  have hhead := congrArg List.head? (List.cons.inj hlist).2
  rcases l.head_text with hl | hl <;> rw [hl] at hhead <;> simp at hhead

/-- Only slots have a dot in their names. -/
theorem dot_mem_slotText (name : String) : '.' ∈ (slotText name).toList := by
  rw [toList_slotText]
  exact List.mem_cons_of_mem _ (List.mem_append_right _ (by decide))

/-- No label is named like a slot, which has a dot. -/
theorem Label.reference_ne_slot (l : Label) (name : String) : l.reference ≠ slotText name := by
  intro h
  have hdot := dot_mem_slotText name
  rw [← h, toList_reference] at hdot
  rcases List.mem_cons.1 hdot with hdot | hdot
  · exact absurd hdot (by decide)
  · exact l.dot_not_mem_text hdot

/-- No register is named like a slot. -/
theorem Temp.text_ne_slot (t : Temp) (name : String) : t.text ≠ slotText name := by
  intro h
  have hdot := dot_mem_slotText name
  rw [← h, toList_text, List.mem_cons, List.mem_cons] at hdot
  rcases hdot with hdot | hdot | hdot
  · exact absurd hdot (by decide)
  · exact absurd hdot (by decide)
  · exact dot_not_mem_digits _ hdot

/-- The names of a function: its labels, its temporaries and its slots. -/
def Module.localNames (m : Module) : List String :=
  m.labels.map Label.reference ++
    ((results m.instrs).map (·.1.text) ++ (m.instrs.filterMap Instr.slotMade?).map slotText)

/-- Labels, temporaries and slots are written apart, so no name is given twice when
    none of the three repeats. -/
theorem Module.nodup_localNames {m : Module} (hlabels : m.labels.Nodup)
    (htemps : ((results m.instrs).map Prod.fst).Nodup)
    (hslots : (m.instrs.filterMap Instr.slotMade?).Nodup) : m.localNames.Nodup := by
  have hreferences : (m.labels.map Label.reference).Nodup :=
    List.pairwise_map.2 (hlabels.imp fun hne href => hne (Label.reference_injective href))
  have htexts : ((results m.instrs).map (·.1.text)).Nodup :=
    List.pairwise_map.2 ((List.pairwise_map.1 htemps).imp
      fun hne htext => hne (Temp.text_injective htext))
  have hslotTexts : ((m.instrs.filterMap Instr.slotMade?).map slotText).Nodup :=
    List.pairwise_map.2 (hslots.imp fun hne hslot => hne (slotText_injective hslot))
  refine List.nodup_append.2 ⟨hreferences, List.nodup_append.2 ⟨htexts, hslotTexts, ?_⟩, ?_⟩
  · intro a ha b hb
    obtain ⟨r, -, rfl⟩ := List.mem_map.1 ha
    obtain ⟨x, -, rfl⟩ := List.mem_map.1 hb
    exact Temp.text_ne_slot _ _
  · intro a ha b hb
    obtain ⟨l, -, rfl⟩ := List.mem_map.1 ha
    rcases List.mem_append.1 hb with hb | hb
    · obtain ⟨r, -, rfl⟩ := List.mem_map.1 hb
      exact Label.reference_ne_temp _ _
    · obtain ⟨x, -, rfl⟩ := List.mem_map.1 hb
      exact Label.reference_ne_slot _ _

-- ============================================================================
-- The function of a module
-- ============================================================================

/-- The function made for a program assigns every temporary once, uses it only behind
    its definition, in the same block and at its type, makes every slot once, in the
    entry block, and gives no name twice. -/
theorem Program.lower_singleAssignment (p : Program) (inventory : Inventory) (m : Module)
    (h : (p.lower inventory).outcome = .ok m) :
    (results m.instrs).map Prod.fst = (List.range m.tempCount).map Temp.mk ∧
    (m.leading = [] ∧ ∀ b ∈ m.blocks, ∀ front i back, b.instrs = front ++ i :: back →
      i.uses ⊆ results front) ∧
    (∃ entry rest, m.blocks = entry :: rest ∧ entry.label = .entry ∧
      (∀ b ∈ rest, ∀ i ∈ b.instrs, i.isAlloca = false) ∧
      ∀ i ∈ m.instrs, ∀ x ∈ i.slots,
        entry.instrs.filter (fun j => x ∈ j.slots) = [.alloca x, .store (.literal 0.0) x]) ∧
    m.localNames.Nodup := by
  have hmain := Program.mainCode_of_lower h
  have hflow := hmain.flow
  obtain ⟨hleading, hblocks⟩ := hflow.cut rfl
  obtain ⟨k, hk, hresults⟩ := hflow.results
  rw [Nat.zero_add] at hk
  subst hk
  have htemps : (results m.instrs).map Prod.fst = (List.range m.tempCount).map Temp.mk := by
    rw [List.range_eq_range']
    exact hresults
  refine ⟨htemps, ⟨hleading, ?_⟩, ?_, ?_⟩
  · intro b hb front i back hb'
    simpa using (hblocks b hb).uses hb'
  · obtain ⟨last, rest, hcut, hlast, hrest⟩ := hmain.entry
    refine ⟨_, rest, hcut, rfl, hrest, fun i hi x hx => ?_⟩
    have hname : x ∈ (p.env inventory).names := (hflow.ok_of_mem hi).slots x hx
    rw [List.filter_append, filter_slotInstrs Ascending.nodup hname]
    simp [hlast]
  · refine Module.nodup_localNames (hmain.nodup_labels p.nodup_numbers) ?_ ?_
    · rw [htemps]
      exact List.pairwise_map.2 (List.nodup_range.imp fun hne htemp => hne (Temp.mk.inj htemp))
    · rw [show m.instrs.filterMap Instr.slotMade? = _ from hmain.slotsMade]
      exact Ascending.nodup

theorem Program.singleAssignment_tour :
    ∃ m, (tour.lower tour.inventory).outcome = .ok m ∧
      (results m.instrs).map Prod.fst = (List.range m.tempCount).map Temp.mk ∧
      m.localNames.Nodup := by
  obtain ⟨m, hm⟩ := exists_lower_tour
  obtain ⟨htemps, -, -, hnames⟩ := tour.lower_singleAssignment _ m hm
  exact ⟨m, hm, htemps, hnames⟩

end LineBasic
