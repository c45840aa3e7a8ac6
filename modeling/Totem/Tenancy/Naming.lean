import Totem.Tenancy.Database

/-!
# Totem.Tenancy.Naming — the names that a tenant database can have

* `InLanguage`: the names that are meant; `matchesName_iff`: those that match, which may end with a line.
* `tenantDatabases`: the databases of the active tenants, from the catalog if there is one.
* `names_enforced_iff`: the names for which the three ways in are as strict as the language.
-/

namespace Totem.Tenancy

/-- A lower-case letter or `_`, then at most 62 lower-case letters, digits or `_`, and nothing else. -/
def InLanguage (name : String) : Prop :=
  ∃ c rest, name.toList = c :: rest ∧ isNameStart c = true ∧ rest.length ≤ 62 ∧ ∀ d ∈ rest, isNameChar d = true

theorem mem_of_inLanguage {name : String} (h : InLanguage name) {c : Char} (hc : c ∈ name.toList) :
    isNameChar c = true := by
  obtain ⟨first, rest, hname, hfirst, -, hrest⟩ := h
  rw [hname] at hc
  rcases List.mem_cons.mp hc with rfl | hc
  · rw [isNameChar, hfirst, Bool.true_or]
  · exact hrest c hc

theorem not_inLanguage_line (w : String) : ¬ InLanguage (w ++ "\n") := by
  intro h
  have hmem : '\n' ∈ (w ++ "\n").toList := by
    rw [String.toList_append]
    exact List.mem_append_right _ List.mem_cons_self
  exact absurd (mem_of_inLanguage h hmem) (by decide)

/-- **The names that match**: `$` stands before a final newline too. -/
theorem matchesName_iff {name : String} :
    matchesName name = true ↔ InLanguage name ∨ ∃ w, InLanguage w ∧ name = w ++ "\n" := by
  constructor
  · intro h
    unfold matchesName at h
    cases hname : name.toList with
    | nil =>
      rw [hname] at h
      cases h
    | cons c rest =>
      rw [hname] at h
      simp only [Bool.and_eq_true, matchesTail, decide_eq_true_eq, List.all_eq_true] at h
      obtain ⟨hc, h⟩ := h
      split_ifs at h with hlast
      · obtain ⟨body, rfl⟩ := List.getLast?_eq_some_iff.mp hlast
        rw [List.dropLast_concat] at h
        refine .inr ⟨String.ofList (c :: body), ⟨c, body, String.toList_ofList, hc, h⟩, ?_⟩
        rw [← String.toList_inj, hname, String.toList_append, String.toList_ofList]
        rfl
      · exact .inl ⟨c, rest, hname, hc, h⟩
  · rintro (⟨c, rest, hname, hc, hlength, hall⟩ | ⟨w, ⟨c, rest, hname, hc, hlength, hall⟩, rfl⟩)
    · have hlast : rest.getLast? ≠ some '\n' := fun h =>
        absurd (hall _ (List.mem_of_getLast? h)) (by decide)
      simp only [matchesName, hname, hc, matchesTail, if_neg hlast, Bool.true_and, Bool.and_eq_true,
        decide_eq_true_eq, List.all_eq_true]
      exact ⟨hlength, hall⟩
    · have hline : (w ++ "\n").toList = c :: (rest ++ ['\n']) := by
        rw [String.toList_append, hname]
        rfl
      have hlast : (rest ++ ['\n']).getLast? = some '\n' := List.getLast?_concat
      simp only [matchesName, hline, hc, matchesTail, if_pos hlast, List.dropLast_concat, Bool.true_and,
        Bool.and_eq_true, decide_eq_true_eq, List.all_eq_true]
      exact ⟨hlength, hall⟩

/-! ## The three ways in -/

section

variable {S : Settings} {C : Type*}

/-- `tenant_databases`.  `names` is what the catalog answers: the `db_name` of each active tenant. -/
def State.tenantDatabases (s : State S C) (names : Except Error (List (Option String))) :
    Except Error (List String) :=
  if saasAlias ∉ s.aliases then .ok [S.default]
  else names.map fun names => names.filterMap fun db_name => if matchesName (db_name.getD "") then db_name else none

/-- A name is validated, listed from the catalog and registered only if it is in the language. -/
structure Enforced (s : State S C) (names : Except Error (List (Option String))) (name : String) : Prop where
  validated : ∀ db, s.validateDatabaseName name = .ok db → InLanguage name
  listed : saasAlias ∈ s.aliases → ∀ listed, s.tenantDatabases names = .ok listed → name ∈ listed → InLanguage name
  registered : ∀ h s', s.addDatabase name h = .ok s' → InLanguage name

variable {s : State S C} {names : Except Error (List (Option String))} {name : String}

theorem validates_iff : (∃ db, s.validateDatabaseName name = .ok db) ↔ matchesName name = true ∧ name ∉ S.aliases := by
  rw [validateDatabaseName_eq]
  split_ifs with h
  · exact iff_of_true ⟨_, rfl⟩ h
  · exact iff_of_false (fun ⟨_, hok⟩ => by cases hok) h

theorem lists_iff (hsaas : saasAlias ∈ s.aliases) :
    (∃ listed, s.tenantDatabases names = .ok listed ∧ name ∈ listed) ↔
      matchesName name = true ∧ ∃ answer, names = .ok answer ∧ some name ∈ answer := by
  rw [State.tenantDatabases, if_neg (not_not.mpr hsaas)]
  cases names with
  | error e => simp [Except.map]
  | ok answer =>
    have hmem : name ∈ (answer.filterMap fun db_name => if matchesName (db_name.getD "") then db_name else none) ↔
        matchesName name = true ∧ some name ∈ answer := by
      rw [List.mem_filterMap]
      constructor
      · rintro ⟨db_name, hrow, h⟩
        split_ifs at h with hmatch
        rw [h] at hrow hmatch
        exact ⟨hmatch, hrow⟩
      · exact fun ⟨hmatch, hrow⟩ => ⟨some name, hrow, if_pos hmatch⟩
    simp [Except.map, hmem]

theorem registers_iff : (∃ h s', s.addDatabase name h = .ok s') ↔
    matchesName name = true ∧ name ∉ s.aliases ∧ name ≠ defaultAlias ∧ name ≠ saasAlias := by
  constructor
  · rintro ⟨h, s', hadd⟩
    unfold State.addDatabase at hadd
    split_ifs at hadd with hname
    exact ⟨hname.1, h, hname.2⟩
  · rintro ⟨hmatch, h, hname⟩
    exact ⟨h, _, dif_pos ⟨hmatch, hname⟩⟩

/-- **The names that are kept to the language.**  All are, but one of the language followed by a newline: that is
registered and validated if no alias is in its way, and listed if the catalog has it. -/
theorem names_enforced_iff (s : State S C) (names : Except Error (List (Option String))) (name : String) :
    Enforced s names name ↔ ∀ w, InLanguage w → name = w ++ "\n" →
      name ∈ S.aliases ∧ (saasAlias ∈ s.aliases → ∀ answer, names = .ok answer → some name ∉ answer) := by
  constructor
  · rintro h w hw rfl
    have hmatch : matchesName (w ++ "\n") = true := matchesName_iff.mpr (.inr ⟨w, hw, rfl⟩)
    constructor
    · by_contra hstatic
      obtain ⟨db, hdb⟩ := validates_iff.mpr ⟨hmatch, hstatic⟩
      exact not_inLanguage_line w (h.validated db hdb)
    · intro hsaas answer hanswer hrow
      obtain ⟨listed, hlisted, hmem⟩ := (lists_iff hsaas).mpr ⟨hmatch, answer, hanswer, hrow⟩
      exact not_inLanguage_line w (h.listed hsaas listed hlisted hmem)
  · intro h
    have hin (hmatch : matchesName name = true) (hother : ∀ w, InLanguage w → name ≠ w ++ "\n") : InLanguage name := by
      rcases matchesName_iff.mp hmatch with hname | ⟨w, hw, heq⟩
      · exact hname
      · exact absurd heq (hother w hw)
    refine ⟨fun db hdb => ?_, fun hsaas listed hlisted hmem => ?_, fun hnot s' hadd => ?_⟩
    · obtain ⟨hmatch, hstatic⟩ := validates_iff.mp ⟨db, hdb⟩
      exact hin hmatch fun w hw heq => hstatic (h w hw heq).1
    · obtain ⟨hmatch, answer, hanswer, hrow⟩ := (lists_iff hsaas).mp ⟨listed, hlisted, hmem⟩
      exact hin hmatch fun w hw heq => (h w hw heq).2 hsaas answer hanswer hrow
    · obtain ⟨hmatch, -⟩ := registers_iff.mp ⟨hnot, s', hadd⟩
      exact hin hmatch fun w hw heq => hnot (List.mem_append_left _ (h w hw heq).1)

end

/-- A name with a newline after it comes in by all three. -/
theorem newline_accepted : ∃ (S : Settings) (s : State S Unit), ¬ InLanguage "acme\n" ∧
    (∃ db, s.validateDatabaseName "acme\n" = .ok db) ∧
    s.tenantDatabases (.ok [some "acme\n", none, some "Acme"]) = .ok ["acme\n"] ∧
    ∃ h s', s.addDatabase "acme\n" h = .ok s' := by
  let S : Settings := { default := "main", others := [(saasAlias, "saas")] }
  let s : State S Unit := { selected := none, tenants := [], connections := fun _ => none, time := 0 }
  refine ⟨S, s, not_inLanguage_line "acme", validates_iff.mpr ?_, by decide, registers_iff.mpr ?_⟩
  · decide
  · decide

end Totem.Tenancy
