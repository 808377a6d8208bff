import Lox.Proofs.Grammar.SingleExpression
import Lox.Proofs.Source.Lookahead
import Lox.Proofs.Tree.Relabeling

/-!
Two texts with a line break between them.

A line break ends every segment that it does not belong to, and only strings and block comments may
hold one. So a text in which all of these are closed is taken apart in the same way whatever comes
after a line break behind it, and what comes there is taken apart as if it stood by itself, on later
lines.
-/

namespace Lox.Source

/-! ### Segments -/

/-- All strings and block comments are closed. -/
def Closed (ss : List Segment) : Prop :=
  ∀ s ∈ ss, ∀ f, s.role = .fault f → f = .unexpectedCharacter

/-- What stands in front of a line break stands there whatever comes behind this. -/
lemma Stands.before_break {role : Role} {text rest : List Char} (h : Stands role text rest)
    (hclosed : ∀ f, role = .fault f → f = .unexpectedCharacter) (more : List Char) :
    Stands role text (rest ++ '\n' :: more) := by
  refine h.before hclosed (fun w hw hpre => ?_) fun _ hrest => ?_
  · rw [← List.append_assoc] at hpre
    exact hw.of_append (by decide) hpre
  · cases rest with
    | nil => exact fun c hc => (Option.some.inj hc).symm
    | cons d rest => exact hrest

lemma Decomposes.append_break {cs more : List Char} {ss ss' : List Segment} (h : Decomposes cs ss)
    (hclosed : Closed ss) (h' : Decomposes ('\n' :: more) ss') :
    Decomposes (cs ++ '\n' :: more) (ss ++ ss') := by
  induction h with
  | nil => exact h'
  | cons hs _ ih =>
    obtain ⟨hfirst, hclosed⟩ := List.forall_mem_cons.mp hclosed
    rw [List.append_assoc]
    exact .cons (hs.before_break hfirst more) (ih hclosed)

/-- A text without open strings and comments is taken apart in the same way if a line break and more
text come after it. -/
theorem segments_append_break (a b : List Char) (h : Closed (segments a)) :
    segments (a ++ '\n' :: b) = segments a ++ segments ('\n' :: b) := by
  have ha : Decomposes a (segments a) := decomposes_iff.mpr rfl
  exact (decomposes_iff.mp (ha.append_break h (decomposes_iff.mpr rfl))).symm

/-! ### Items -/

/-- An item on another line. -/
def Item.relabel (r : Relabeling) : Item → Item
  | token t => token (t.relabel r)
  | fault line f => fault (r.line line) f

lemma itemsAfter_relabel {r : Relabeling} (hr : ∀ line n, r.line (line + n) = r.line line + n)
    (found : List Item) (line : ℕ) (ss : List Segment) :
    itemsAfter (found.map (Item.relabel r)) (r.line line) ss =
      (itemsAfter found line ss).map (Item.relabel r) := by
  induction ss generalizing found line with
  | nil =>
    rw [itemsAfter, itemsAfter, List.map_reverse]
    rfl
  | cons s ss ih =>
    have hitem : (s.item? (r.line (line + lineBreaks s.text))).toList =
        ((s.item? (line + lineBreaks s.text)).toList).map (Item.relabel r) := by
      unfold Segment.item?
      cases s.role <;> rfl
    rw [itemsAfter, itemsAfter, ← hr, hitem, ← List.map_append, ih]

/-- No string and no block comment of a source is reported to be open. -/
def NothingOpen (source : String) : Prop :=
  ∀ line f, (line, f) ∈ faults source → f = .unexpectedCharacter

lemma NothingOpen.closed {source : String} (h : NothingOpen source) :
    Closed (segments source.toList) := by
  intro s hs f hf
  obtain ⟨line, hline⟩ := exists_mem_faults_iff.mpr ⟨s, hs, hf⟩
  exact h line f hline

/-- Two texts with a line break between them have the items of both but for one end, those of the
second on later lines. -/
lemma items_append_break {a : String} (h : NothingOpen a) (b : String) : ∃ is,
    (∀ t, .token t ∈ is → t.kind ≠ .eof) ∧
    items a = is ++ [.token ⟨.eof, "", 1 + lineBreaks a.toList⟩] ∧
    items (a ++ "\n" ++ b) =
      is ++ (items b).map (Item.relabel (.shift 0 (1 + lineBreaks a.toList))) := by
  have hdecomposes : Decomposes a.toList (segments a.toList) := decomposes_iff.mpr rfl
  obtain ⟨is, hreports, hitems⟩ := exists_reports_append 1 (segments a.toList)
  rw [hdecomposes.flatMap_text] at hitems
  refine ⟨is, hreports.kind_ne (role_ne_of_mem_segments _), ?_, ?_⟩
  · have hend := hitems []
    rwa [List.append_nil] at hend
  · have htext : (a ++ "\n" ++ b).toList = a.toList ++ '\n' :: b.toList := by simp
    have hbreak : segments ('\n' :: b.toList) = ⟨['\n'], .blank⟩ :: segments b.toList :=
      segments_cons '\n' b.toList
    have hshift := itemsAfter_relabel (r := .shift 0 (1 + lineBreaks a.toList))
      (fun line n => Nat.add_right_comm line n _) [] 1 (segments b.toList)
    rw [items, htext, segments_append_break _ _ h.closed, hitems, hbreak, itemsAfter, items,
      ← hshift]
    exact congrArg (fun line => is ++ itemsAfter [] line (segments b.toList)) (Nat.add_comm _ 1)

/-- The tokens of a text end with one end of input. -/
lemma tokens_eq (source : String) : tokens source =
    Grammar.beforeEnd (tokens source) ++ [⟨.eof, "", 1 + lineBreaks source.toList⟩] := by
  obtain ⟨is, hreports, hitems⟩ := reports_segments source
  have htokens : tokens source =
      is.filterMap Item.token? ++ [⟨.eof, "", 1 + lineBreaks source.toList⟩] := by
    rw [tokens, hitems, List.filterMap_append]
    rfl
  have hend : ∀ t ∈ is.filterMap Item.token?, t.kind ≠ .eof := by
    intro t ht
    obtain ⟨i, hi, hit⟩ := List.mem_filterMap.mp ht
    cases i with
    | token u =>
      cases hit
      exact hreports.kind_ne (role_ne_of_mem_segments _) t hi
    | fault => cases hit
  rw [htokens, Grammar.beforeEnd_append hend rfl]

lemma token?_relabel (r : Relabeling) (is : List Item) :
    (is.map (Item.relabel r)).filterMap Item.token? =
      (is.filterMap Item.token?).map (Token.relabel r) := by
  rw [List.filterMap_map, List.map_filterMap]
  refine List.filterMap_congr fun i _ => ?_
  cases i <;> rfl

lemma fault?_relabel (r : Relabeling) (is : List Item) :
    (is.map (Item.relabel r)).filterMap Item.fault? =
      (is.filterMap Item.fault?).map fun (line, f) => (r.line line, f) := by
  rw [List.filterMap_map, List.map_filterMap]
  refine List.filterMap_congr fun i _ => ?_
  cases i <;> rfl

/-- Two texts with a line break between them have the tokens and the faults of both, those of the
second on later lines. -/
lemma tokens_append_break {a : String} (h : NothingOpen a) (b : String) :
    tokens (a ++ "\n" ++ b) = Grammar.beforeEnd (tokens a) ++
        (tokens b).map (Token.relabel (.shift 0 (1 + lineBreaks a.toList))) ∧
      faults (a ++ "\n" ++ b) =
        faults a ++ (faults b).map fun (line, f) => (line + (1 + lineBreaks a.toList), f) := by
  obtain ⟨is, -, ha, hb⟩ := items_append_break h b
  constructor
  · have hbefore : Grammar.beforeEnd (tokens a) = is.filterMap Item.token? := by
      refine List.append_cancel_right ((tokens_eq a).symm.trans ?_)
      rw [tokens, ha, List.filterMap_append]
      rfl
    rw [hbefore, tokens, hb, List.filterMap_append, token?_relabel, tokens]
  · have hfaults : faults a = is.filterMap Item.fault? := by
      rw [faults, ha, List.filterMap_append]
      exact List.append_nil _
    rw [hfaults, faults, hb, List.filterMap_append, fault?_relabel, faults]
    rfl

/-- A line break ends what stands in front of it. Where no string and no block comment of the first
text is open, two texts with a line break between them have the items of the first without its end,
and then those of the second, which lie as many lines lower as the first text and the break have.
So have their tokens and their faults. -/
theorem line_break_separates {a : String} (hstring : ∀ line, (line, .unterminatedString) ∉ faults a)
    (hcomment : ∀ line, (line, .unterminatedComment) ∉ faults a) (b : String) :
    (∃ is, items a = is ++ [.token ⟨.eof, "", 1 + lineBreaks a.toList⟩] ∧
      (∀ t, .token t ∈ is → t.kind ≠ .eof) ∧
      items (a ++ "\n" ++ b) =
        is ++ (items b).map (Item.relabel (.shift 0 (lineBreaks a.toList + 1)))) ∧
    tokens (a ++ "\n" ++ b) = Grammar.beforeEnd (tokens a) ++
      (tokens b).map (Token.relabel (.shift 0 (lineBreaks a.toList + 1))) ∧
    faults (a ++ "\n" ++ b) =
      faults a ++ (faults b).map fun (line, f) => (line + (lineBreaks a.toList + 1), f) := by
  have hopen : NothingOpen a := by
    intro line f hf
    cases f with
    | unexpectedCharacter => rfl
    | unterminatedString => exact absurd hf (hstring line)
    | unterminatedComment => exact absurd hf (hcomment line)
  obtain ⟨is, hend, ha, hb⟩ := items_append_break hopen b
  rw [Nat.add_comm (lineBreaks a.toList)]
  exact ⟨⟨is, ha, hend, hb⟩, tokens_append_break hopen b⟩

/-- A character that is not expected, at the end of a text with a string over two lines, and a
string that is not closed in the second text. -/
theorem line_break_separates_after_stray :
    let a := "\"x\n\" @"
    let b := "= \"y"
    (∀ line, (line, .unterminatedString) ∉ faults a) ∧
      (∀ line, (line, .unterminatedComment) ∉ faults a) ∧
      tokens (a ++ "\n" ++ b) =
        [⟨.string "x\n", "\"x\n\"", 2⟩, ⟨.symbol .equal, "=", 3⟩, ⟨.eof, "", 3⟩] ∧
      faults (a ++ "\n" ++ b) = [(2, .unexpectedCharacter), (3, .unterminatedString)] := by
  intro a b
  have hfaults : faults a = [(2, .unexpectedCharacter)] := by decide +kernel
  have hstring : ∀ line, (line, .unterminatedString) ∉ faults a := by simp [hfaults]
  have hcomment : ∀ line, (line, .unterminatedComment) ∉ faults a := by simp [hfaults]
  obtain ⟨-, htokens, hall⟩ := line_break_separates hstring hcomment b
  refine ⟨hstring, hcomment, htokens.trans ?_, hall.trans ?_⟩
  · decide +kernel
  · decide +kernel

end Lox.Source
