import Lox.Proofs.Scope.Locals

/-!
Which complaints about locals an input gets.

The three faults of locals are reported exactly where they are: of a name that its scope has
already, of a local that is not read, and of a local that is read in its own value.
-/

namespace Lox.Scope

open Survey

/-- What an input complains of about locals is what is wrong in its rooms, each by itself. -/
lemma complaints_ofLocal {input : Grammar.Input} (ho : (rootOf input).Orderly)
    (hn : (rootOf input).Named) : ((ofInput input).complaints.filter ofLocal).Perm
      ((rooms input).flatMap Room.complaints) := by
  have hempty : Settled [] .empty := ⟨⟨.nil, nofun⟩, nofun⟩
  have htracks : (((rootOf input).survey .outermost .empty).complaints.filter ofLocal).Perm
      ((rooms input).flatMap Room.complaints) := by
    cases input with
    | expression e => exact (tracks_value hempty .outermost ho).complaints
    | statements body =>
      exact (tracks_stmts .outermost body ho hn _ hempty).complaints.trans
        (.of_eq (List.append_nil _))
  rw [findings_ofInput, Survey.findings, List.filter_reverse]
  exact (List.reverse_perm _).trans htracks

variable {mode : Grammar.Mode} {source : String} {firstId : NodeId} {input : Grammar.Input}

lemma filter_about (f g : Fault) (ts : List Token) :
    (ts.map (about g)).filter (·.isOf f) = if g = f then ts.map (about g) else [] := by
  rw [List.filter_map]
  split
  · rename_i hgf
    exact congrArg _ (List.filter_eq_self.mpr fun _ _ => decide_eq_true hgf)
  · rename_i hgf
    rw [List.filter_eq_nil_iff.mpr fun _ _ => by simpa [about, Complaint.isOf] using hgf]
    rfl

lemma Room.filter_complaints (r : Room) (f : Fault) : r.complaints.filter (·.isOf f) =
    (if .alreadyDeclared = f then r.again.map (about .alreadyDeclared) else []) ++
      (if .readInOwnInitializer = f then r.initials.flatMap initialComplaints else []) ++
      if .neverRead = f then r.unread.map (about .neverRead) else [] := by
  have hinitials : (r.initials.flatMap initialComplaints).filter (·.isOf f) =
      if .readInOwnInitializer = f then r.initials.flatMap initialComplaints else [] := by
    simp only [List.filter_flatMap, initialComplaints, filter_about]
    split
    · rfl
    · simp
  rw [Room.complaints, List.filter_append, List.filter_append, filter_about, filter_about,
    hinitials]

/-- One kind of complaint, room by room. -/
lemma complaints_isOf (hread : (Grammar.read mode source firstId).result = .ok input) {f : Fault}
    (hf : ∀ c : Complaint, c.isOf f → ofLocal c) :
    ((ofInput input).complaints.filter (·.isOf f)).Perm
      ((rooms input).flatMap fun r => r.complaints.filter (·.isOf f)) := by
  have hall := (complaints_ofLocal (readInput_read hread).orderly
    (named_read hread)).filter (·.isOf f)
  rw [List.filter_flatMap, List.filter_filter] at hall
  refine (List.Perm.of_eq (List.filter_congr fun c _ => ?_)).trans hall
  rw [Bool.eq_iff_iff, Bool.and_eq_true]
  exact ⟨fun hc => ⟨hc, hf c hc⟩, And.left⟩

/-- What is evaluated on a fixed text is told of the input that is read from it. -/
lemma exists_of_map_toOption {α ε β : Type} {r : Except ε α} {f : α → β} {b : β}
    (h : r.toOption.map f = some b) : ∃ a, r = .ok a ∧ f a = b := by
  cases r with
  | error => exact nomatch h
  | ok a => exact ⟨a, rfl, Option.some.inj h⟩

/-- It is reported once of each local that no variable leads to, where it is declared first, that
it is not read, and of nothing else; and of each name that its scope has already, where it stands,
that it is declared again. The names at the top level are in no room, and nothing is reported of
them. -/
theorem locals_reported (hread : (Grammar.read mode source firstId).result = .ok input) :
    ((ofInput input).complaints.filter (·.isOf .neverRead)).Perm
        ((rooms input).flatMap fun r => r.unread.map (about .neverRead)) ∧
      ((ofInput input).complaints.filter (·.isOf .alreadyDeclared)).Perm
        ((rooms input).flatMap fun r => r.again.map (about .alreadyDeclared)) := by
  constructor
  · have h := complaints_isOf hread (f := .neverRead) fun c hc => by simp [ofLocal, hc]
    simpa [Room.filter_complaints] using h
  · have h := complaints_isOf hread (f := .alreadyDeclared) fun c hc => by simp [ofLocal, hc]
    simpa [Room.filter_complaints] using h

/-- A variable is read by the function after it, and a parameter that is only assigned is not. -/
theorem locals_reported_closure :
    let source := "\x7b var a; fun f(b) \x7b b = a; \x7d var a; \x7d"
    ∃ input, (Grammar.read .program source 0).result = .ok input ∧
      List.Perm [.scope 1 (.token "b") .neverRead, .scope 1 (.token "f") .neverRead]
        ((rooms input).flatMap fun r => r.unread.map (about .neverRead)) ∧
      List.Perm [.scope 1 (.token "a") .alreadyDeclared]
        ((rooms input).flatMap fun r => r.again.map (about .alreadyDeclared)) := by
  intro source
  have hcomplaints : (Grammar.read .program source 0).result.toOption.map
      (fun input => (ofInput input).complaints) =
      some [.scope 1 (.token "b") .neverRead, .scope 1 (.token "a") .alreadyDeclared,
        .scope 1 (.token "f") .neverRead] := by
    decide +kernel
  obtain ⟨input, hread, hc⟩ := exists_of_map_toOption hcomplaints
  have h := locals_reported hread
  rw [hc] at h
  exact ⟨input, hread, h⟩

/-- Of each variable that is declared first with a value in which it is read, it is reported once,
at the first of the reads, that it cannot be read there, and of nothing else. -/
theorem own_initializers_reported
    (hread : (Grammar.read mode source firstId).result = .ok input) :
    ((ofInput input).complaints.filter (·.isOf .readInOwnInitializer)).Perm
      ((rooms input).flatMap fun r => r.initials.flatMap fun p =>
        ((ownReads p.1 p.2).take 1).map (about .readInOwnInitializer)) := by
  have hroom : ∀ r : Room, r.complaints.filter (·.isOf .readInOwnInitializer) =
      r.initials.flatMap initialComplaints := fun r => by
    rw [Room.filter_complaints]
    simp
  have h := complaints_isOf hread (f := .readInOwnInitializer) fun c hc => by simp [ofLocal, hc]
  simp only [hroom] at h
  exact h

/-- A variable that its scope has already does not wait for its value, and may be read there. -/
theorem own_initializers_reported_parameter :
    let source := "fun f(a) \x7b var a = a; var b = b + 1; \x7d"
    ∃ input, (Grammar.read .program source 0).result = .ok input ∧
      List.Perm [.scope 1 (.token "b") .readInOwnInitializer]
        ((rooms input).flatMap fun r => r.initials.flatMap fun p =>
          ((ownReads p.1 p.2).take 1).map (about .readInOwnInitializer)) := by
  intro source
  have hcomplaints : (Grammar.read .program source 0).result.toOption.map
      (fun input => (ofInput input).complaints.filter (·.isOf .readInOwnInitializer)) =
      some [.scope 1 (.token "b") .readInOwnInitializer] := by
    decide +kernel
  obtain ⟨input, hread, hc⟩ := exists_of_map_toOption hcomplaints
  exact ⟨input, hread, hc ▸ own_initializers_reported hread⟩

/-- Where a variable is read twice in its own value, the second read is not reported: the first one
has moved the variable on, and it does not wait any longer. -/
theorem own_initializers_second_read :
    ∃ input, (Grammar.read .program "\x7b var a = a + a; \x7d" 0).result = .ok input ∧
      ¬((ofInput input).complaints.filter (·.isOf .readInOwnInitializer)).Perm
        ((rooms input).flatMap fun r => r.initials.flatMap fun p =>
          (ownReads p.1 p.2).map (about .readInOwnInitializer)) := by
  have hcounts : (Grammar.read .program "\x7b var a = a + a; \x7d" 0).result.toOption.map
      (fun input => (((ofInput input).complaints.filter (·.isOf .readInOwnInitializer)).length,
        ((rooms input).flatMap fun r => r.initials.flatMap fun p =>
          (ownReads p.1 p.2).map (about .readInOwnInitializer)).length)) = some (1, 2) := by
    decide +kernel
  obtain ⟨input, hread, hlengths⟩ := exists_of_map_toOption hcounts
  obtain ⟨hone, htwo⟩ := Prod.mk.inj hlengths
  refine ⟨input, hread, fun hperm => ?_⟩
  exact absurd (hone.symm.trans (hperm.length_eq.trans htwo)) (by decide)

end Lox.Scope
