import Mathlib.Data.List.Forall2
import Lox.Proofs.Source.Counting
import Lox.Proofs.Source.Lookahead

/-!
Characters that are not expected act as blanks.

They take part in no token, as blanks do not, and no line ends with them. So with a blank in place
of each of them a source has the same items, but for the faults that report them. The same
characters in strings and comments are left alone.
-/

namespace Lox.Source

variable {cs : List Char} {ss : List Segment}

/-- The segment is a character that is not expected. -/
def Segment.IsStray (s : Segment) : Prop := s.role = .fault .unexpectedCharacter

instance (s : Segment) : Decidable s.IsStray := inferInstanceAs (Decidable (_ = _))

/-- The places of characters that are not expected, if the first segment begins at `place`. -/
def strayPlacesFrom (place : ℕ) : List Segment → List ℕ
  | [] => []
  | s :: ss =>
    let later := strayPlacesFrom (place + s.text.length) ss
    if s.IsStray then place :: later else later

/-- The places of characters of a source that are reported as not expected. -/
def strayPlaces (source : String) : List ℕ := strayPlacesFrom 0 (segments source.toList)

/-- A source with one blank in place of each character that is reported as not expected. -/
def blanked (source : String) : String :=
  String.ofList (source.toList.mapIdx fun i c => if i ∈ strayPlaces source then ' ' else c)

/-! ### Places -/

lemma mem_strayPlacesFrom_cons {place i : ℕ} {s : Segment} :
    i ∈ strayPlacesFrom place (s :: ss) ↔
      s.IsStray ∧ i = place ∨ i ∈ strayPlacesFrom (place + s.text.length) ss := by
  rw [strayPlacesFrom]
  by_cases hs : s.IsStray <;> simp [hs]

/-- A place is one where a segment begins that is a character not expected. -/
lemma mem_strayPlacesFrom {place i : ℕ} : i ∈ strayPlacesFrom place ss ↔
    ∃ before s after, ss = before ++ s :: after ∧ s.IsStray ∧
      i = place + (before.flatMap (·.text)).length := by
  induction ss generalizing place with
  | nil => simp [strayPlacesFrom]
  | cons s ss ih =>
    rw [mem_strayPlacesFrom_cons, ih]
    constructor
    · rintro (⟨hs, rfl⟩ | ⟨before, t, after, rfl, ht, rfl⟩)
      · exact ⟨[], s, ss, rfl, hs, rfl⟩
      · exact ⟨s :: before, t, after, rfl, ht, by simp [Nat.add_assoc]⟩
    · rintro ⟨_ | ⟨u, before⟩, t, after, heq, ht, rfl⟩
      · cases heq
        exact .inl ⟨ht, rfl⟩
      · cases heq
        exact .inr ⟨before, t, after, rfl, ht, by simp [Nat.add_assoc]⟩

lemma le_of_mem_strayPlacesFrom {place i : ℕ} (h : i ∈ strayPlacesFrom place ss) : place ≤ i := by
  obtain ⟨before, s, after, -, -, rfl⟩ := mem_strayPlacesFrom.mp h
  exact Nat.le_add_right place _

/-- No place is listed twice, for segments are not empty. -/
lemma Decomposes.pairwise_strayPlacesFrom (h : Decomposes cs ss) (place : ℕ) :
    (strayPlacesFrom place ss).Pairwise (· < ·) := by
  induction h generalizing place with
  | nil => exact .nil
  | @cons s rest ss hs _ ih =>
    rw [strayPlacesFrom]
    split
    · refine List.pairwise_cons.mpr ⟨fun i hi => ?_, ih _⟩
      have hlength := List.length_pos_iff.mpr hs.ne_nil
      have hle := le_of_mem_strayPlacesFrom hi
      omega
    · exact ih _

/-! ### Segments -/

/-- The segment with a blank in place of a character that is not expected. -/
def Segment.blanked (s : Segment) : Segment := if s.IsStray then ⟨[' '], .blank⟩ else s

lemma Stands.of_stray {text rest : List Char} (h : Stands (.fault .unexpectedCharacter) text rest) :
    ∃ c, text = [c] ∧ c ≠ '\n' := by
  cases h with
  | @unexpected c _ hc =>
    refine ⟨c, rfl, ?_⟩
    rintro rfl
    exact hc (by decide)

/-- The character is left, or a blank is put in its place, which is not done to line breaks. -/
def Blanks (c d : Char) : Prop := d = c ∨ d = ' ' ∧ c ≠ '\n'

lemma forall₂_blanks_self (cs : List Char) : List.Forall₂ Blanks cs cs :=
  List.forall₂_same.mpr fun _ _ => .inl rfl

lemma Decomposes.forall₂_blanks (h : Decomposes cs ss) :
    List.Forall₂ Blanks cs (ss.flatMap (·.blanked.text)) := by
  induction h with
  | nil => exact .nil
  | @cons s rest ss hs _ ih =>
    rw [List.flatMap_cons]
    refine List.rel_append ?_ ih
    unfold Segment.blanked
    split
    · rename_i hstray
      rw [hstray] at hs
      obtain ⟨c, hc, hbreak⟩ := hs.of_stray
      rw [hc]
      exact .cons (.inr ⟨rfl, hbreak⟩) .nil
    · exact forall₂_blanks_self s.text

/-- No stretch without blanks is made by putting blanks into a text. -/
lemma Solid.of_blanks {w cs' : List Char} (hw : Solid w) (h : List.Forall₂ Blanks cs cs')
    (hpre : w <+: cs') : w <+: cs := by
  induction h generalizing w with
  | nil => exact hpre
  | @cons c d cs cs' hcd _ ih =>
    cases w with
    | nil => exact List.nil_prefix
    | cons e w =>
      obtain ⟨he, hw⟩ := List.forall_mem_cons.mp hw
      obtain ⟨rfl, htail⟩ := List.cons_prefix_cons.mp hpre
      obtain rfl | ⟨rfl, -⟩ := hcd
      · exact List.cons_prefix_cons.mpr ⟨rfl, ih hw htail⟩
      · cases he

/-- What stands at the front of a text stands there with blanks put in behind it. -/
lemma Stands.before_blanks {role : Role} {text rest rest' : List Char} (h : Stands role text rest)
    (hblanks : List.Forall₂ Blanks rest rest') : Stands role text rest' := by
  by_cases hclosed : ∀ f, role = .fault f → f = .unexpectedCharacter
  · refine h.before hclosed (fun w hw => ?_) fun _ hline => ?_
    · exact hw.of_blanks (List.rel_append (forall₂_blanks_self text) hblanks)
    · cases hblanks with
      | nil => exact nofun
      | cons hcd _ =>
        obtain rfl | ⟨rfl, hbreak⟩ := hcd
        · exact hline
        · exact absurd (hline _ rfl) hbreak
  · -- nothing comes behind what is not closed
    push Not at hclosed
    obtain ⟨f, rfl, hf⟩ := hclosed
    obtain rfl := h.rest_eq_nil hf
    cases hblanks
    exact h

/-- With blanks put in, a text is taken apart in the same way. -/
lemma Decomposes.blanked (h : Decomposes cs ss) :
    Decomposes (ss.flatMap (·.blanked.text)) (ss.map (·.blanked)) := by
  induction h with
  | nil => exact .nil
  | @cons s rest ss hs hrest ih =>
    rw [List.flatMap_cons, List.map_cons]
    refine .cons ?_ ih
    unfold Segment.blanked
    split
    · exact .blank (by decide)
    · exact hs.before_blanks hrest.forall₂_blanks

/-- The blanks are put where characters are not expected. -/
lemma Decomposes.mapIdx_blanked (h : Decomposes cs ss) (place : ℕ) :
    (cs.mapIdx fun i c => if place + i ∈ strayPlacesFrom place ss then ' ' else c) =
      ss.flatMap (·.blanked.text) := by
  induction h generalizing place with
  | nil => rfl
  | @cons s rest ss hs _ ih =>
    have hpos := List.length_pos_iff.mpr hs.ne_nil
    have hlater (i : ℕ) : i ∈ strayPlacesFrom (place + s.text.length) ss →
        place + s.text.length ≤ i := le_of_mem_strayPlacesFrom
    rw [List.mapIdx_append, List.flatMap_cons, ← ih (place + s.text.length)]
    congr 1
    · unfold Segment.blanked
      split
      · rename_i hstray
        have hmem : place ∈ strayPlacesFrom place (s :: ss) :=
          mem_strayPlacesFrom_cons.mpr (.inl ⟨hstray, rfl⟩)
        rw [hstray] at hs
        obtain ⟨c, hc, -⟩ := hs.of_stray
        simp [hc, hmem]
      · rename_i hstray
        refine List.ext_getElem (List.length_mapIdx ..) fun i hi _ => ?_
        rw [List.length_mapIdx] at hi
        rw [List.getElem_mapIdx, if_neg]
        intro hmem
        obtain ⟨hs, -⟩ | hmem := mem_strayPlacesFrom_cons.mp hmem
        · exact hstray hs
        · have := hlater _ hmem
          omega
    · congr 1
      funext i c
      have hplace : place + (i + s.text.length) = place + s.text.length + i := by omega
      have hne : place + s.text.length + i ≠ place := by omega
      simp only [hplace, mem_strayPlacesFrom_cons, hne, and_false, false_or]

/-! ### Items -/

/-- The item is the fault of a character that is not expected. -/
def Item.isStray : Item → Bool
  | token _ => false
  | fault _ f => f = .unexpectedCharacter

lemma lineBreaks_of_stray {s : Segment} {rest : List Char} (hs : Stands s.role s.text rest)
    (hstray : s.IsStray) : lineBreaks s.text = 0 := by
  rw [hstray] at hs
  obtain ⟨c, hc, hbreak⟩ := hs.of_stray
  rw [hc]
  exact lineBreaks_of_not_mem (List.not_mem_cons_of_ne_of_not_mem hbreak.symm List.not_mem_nil)

/-- With blanks put in, all items are left but the faults of characters that are not expected. -/
lemma Decomposes.itemsAfter_blanked (h : Decomposes cs ss) (line : ℕ) :
    itemsAfter [] line (ss.map (·.blanked)) =
      (itemsAfter [] line ss).filter (!·.isStray) := by
  induction h generalizing line with
  | nil => rfl
  | @cons s rest ss hs _ ih =>
    rw [List.map_cons, itemsAfter_cons, itemsAfter_cons, ih, List.filter_append]
    unfold Segment.blanked
    split
    · rename_i hstray
      have hblank : lineBreaks [' '] = 0 := rfl
      have hitem : (s.item? line).toList.filter (!·.isStray) = [] := by
        unfold Segment.item?
        rw [hstray]
        rfl
      rw [lineBreaks_of_stray hs hstray, hblank, Nat.add_zero, hitem]
      rfl
    · rename_i hstray
      congr 1
      unfold Segment.item?
      cases hrole : s.role with
      | fault f =>
        have hf : f ≠ .unexpectedCharacter := fun hf => hstray (hrole.trans (congrArg _ hf))
        simp [Item.isStray, hf]
      | _ => rfl

/-- The faults of characters that are not expected, in order, are on the lines of these. -/
lemma Decomposes.filter_stray (h : Decomposes cs ss) (front : List Char) :
    ((itemsAfter [] (lineAfter front) ss).filterMap Item.fault?).filter
        (·.2 = .unexpectedCharacter) =
      (strayPlacesFrom front.length ss).map fun i =>
        (lineAfter ((front ++ cs).take i), .unexpectedCharacter) := by
  induction h generalizing front with
  | nil => rfl
  | @cons s rest ss hs _ ih =>
    have hlater := ih (front ++ s.text)
    rw [lineAfter_append, List.length_append, List.append_assoc] at hlater
    rw [itemsAfter_cons, List.filterMap_append, List.filter_append, hlater, strayPlacesFrom]
    split
    · rename_i hstray
      rw [List.map_cons, List.take_left, lineBreaks_of_stray hs hstray, ← List.singleton_append]
      congr 1
      unfold Segment.item?
      rw [hstray]
      rfl
    · rename_i hstray
      have hnone : ((s.item? (lineAfter front + lineBreaks s.text)).toList.filterMap
          Item.fault?).filter (·.2 = .unexpectedCharacter) = [] := by
        unfold Segment.item?
        cases hrole : s.role with
        | fault f =>
          have hf : f ≠ .unexpectedCharacter := fun hf => hstray (hrole.trans (congrArg _ hf))
          simp [Item.fault?, hf]
        | _ => rfl
      rw [hnone, List.nil_append]

/-- A source with one blank in place of each character that is not expected has the same tokens, on
the same lines, and the same other faults. These characters are one for each of their faults, which
is on the line of the character. -/
theorem strays_are_blanks (source : String) :
    items (blanked source) = (items source).filter (!·.isStray) ∧
    tokens (blanked source) = tokens source ∧
    faults (blanked source) = (faults source).filter (·.2 ≠ .unexpectedCharacter) ∧
    (faults source).filter (·.2 = .unexpectedCharacter) = (strayPlaces source).map (fun i =>
      (lineAfter (source.toList.take i), .unexpectedCharacter)) ∧
    (strayPlaces source).Pairwise (· < ·) ∧
    ∀ i, i ∈ strayPlaces source ↔ ∃ before c after,
      segments source.toList = before ++ ⟨[c], .fault .unexpectedCharacter⟩ :: after ∧
        i = (before.flatMap (·.text)).length := by
  have h : Decomposes source.toList (segments source.toList) := decomposes_iff.mpr rfl
  have htext : (blanked source).toList = (segments source.toList).flatMap (·.blanked.text) := by
    have hplaces := h.mapIdx_blanked 0
    simp only [Nat.zero_add] at hplaces
    rw [blanked, String.toList_ofList, ← hplaces]
    rfl
  have hitems : items (blanked source) = (items source).filter (!·.isStray) := by
    rw [items, htext, ← decomposes_iff.mp h.blanked, h.itemsAfter_blanked, items]
  refine ⟨hitems, ?_, ?_, h.filter_stray [], h.pairwise_strayPlacesFrom 0, fun i => ?_⟩
  · rw [tokens, hitems, List.filterMap_filter, tokens]
    refine List.filterMap_congr fun i _ => ?_
    cases i with
    | token => rfl
    | fault line f => cases f <;> rfl
  · rw [faults, hitems, List.filterMap_filter, faults, List.filter_filterMap]
    refine List.filterMap_congr fun i _ => ?_
    cases i with
    | token => rfl
    | fault line f => cases f <;> rfl
  · rw [strayPlaces, mem_strayPlacesFrom]
    constructor
    · rintro ⟨before, ⟨text, role⟩, after, hsegments, hstray, rfl⟩
      obtain ⟨rest, hstands⟩ := h.exists_stands ⟨text, role⟩ (by rw [hsegments]; simp)
      obtain rfl : role = _ := hstray
      obtain ⟨c, rfl, -⟩ := hstands.of_stray
      exact ⟨before, c, after, hsegments, Nat.zero_add _⟩
    · rintro ⟨before, c, after, hsegments, rfl⟩
      exact ⟨before, _, after, hsegments, rfl, (Nat.zero_add _).symm⟩

/-- What stands in strings and comments is expected there. -/
example : blanked "a@é\"@\"/*é*/\n&b" = "a  \"@\"/*é*/\n b" := by decide +kernel

end Lox.Source
