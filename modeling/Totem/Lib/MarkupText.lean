import Totem.Lib.Markup

/-!
# Totem.Lib.MarkupText — trees written out and read back

A small markup language: elements with quoted attributes, four entities, names read in lower case.  Writing a
tree and reading it gives the tree back (`parse_serialize`).  Text is escaped when it is written; what happens
to a text that is not is `parse_raw`: it is read as itself exactly when nothing in it is markup, whatever
follows it.
-/

namespace Totem.Lib.Markup

/-! ## Characters -/

def escapeChar (c : Char) : List Char :=
  if c = '&' then ['&', 'a', 'm', 'p', ';']
  else if c = '<' then ['&', 'l', 't', ';']
  else if c = '>' then ['&', 'g', 't', ';']
  else if c = '"' then ['&', 'q', 'u', 'o', 't', ';']
  else [c]

def escapeChars (s : List Char) : List Char := s.flatMap escapeChar

def decode : List Char → List Char
  | '&' :: 'a' :: 'm' :: 'p' :: ';' :: cs => '&' :: decode cs
  | '&' :: 'l' :: 't' :: ';' :: cs => '<' :: decode cs
  | '&' :: 'g' :: 't' :: ';' :: cs => '>' :: decode cs
  | '&' :: 'q' :: 'u' :: 'o' :: 't' :: ';' :: cs => '"' :: decode cs
  | c :: cs => c :: decode cs
  | [] => []

theorem decode_cons_of_ne {c : Char} (h : c ≠ '&') (cs : List Char) : decode (c :: cs) = c :: decode cs := by
  rw [decode] <;> intros <;> simp_all

theorem decode_escapeChars (s : List Char) : decode (escapeChars s) = s := by
  induction s with
  | nil => rfl
  | cons c s ih =>
    have hs : escapeChars (c :: s) = escapeChar c ++ escapeChars s := rfl
    rw [hs]
    unfold escapeChar
    split_ifs with h1 h2 h3 h4
    · rw [h1]
      exact congrArg _ ih
    · rw [h2]
      exact congrArg _ ih
    · rw [h3]
      exact congrArg _ ih
    · rw [h4]
      exact congrArg _ ih
    · show decode (c :: escapeChars s) = c :: s
      rw [decode_cons_of_ne h1, ih]

theorem length_decode_le (s : List Char) : (decode s).length ≤ s.length := by
  fun_induction decode s <;> simp_all only [List.length_cons, List.length_nil] <;> omega

/-- Nothing that is written by `escapeChars` ends a text or a value. -/
theorem not_mem_escapeChars {stop : Char} (h : stop = '<' ∨ stop = '"') (s : List Char) :
    stop ∉ escapeChars s := by
  intro hmem
  obtain ⟨c, -, hc⟩ := List.mem_flatMap.1 hmem
  unfold escapeChar at hc
  rcases h with rfl | rfl <;> split_ifs at hc <;> simp_all [eq_comm]

/-! ## Up to a character -/

/-- What stands before `stop`, its entities decoded, and the rest. -/
def readUntil (stop : Char) (s : List Char) : List Char × List Char :=
  (decode (s.takeWhile (· ≠ stop)), s.dropWhile (· ≠ stop))

theorem ne_stop_of_not_mem {stop : Char} {s : List Char} (hs : stop ∉ s) :
    ∀ c ∈ s, decide (c ≠ stop) = true := by
  intro c hc
  have hne : c ≠ stop := fun h => hs (h ▸ hc)
  simpa using hne

theorem takeWhile_append_stop {stop : Char} {s rest : List Char} (hs : stop ∉ s)
    (hrest : ∀ c ∈ rest.head?, c = stop) : (s ++ rest).takeWhile (· ≠ stop) = s := by
  rw [List.takeWhile_append_of_pos (ne_stop_of_not_mem hs)]
  cases rest with
  | nil => simp
  | cons c rest => simp [hrest c rfl]

theorem dropWhile_append_stop {stop : Char} {s rest : List Char} (hs : stop ∉ s)
    (hrest : ∀ c ∈ rest.head?, c = stop) : (s ++ rest).dropWhile (· ≠ stop) = rest := by
  rw [List.dropWhile_append_of_pos (ne_stop_of_not_mem hs)]
  cases rest with
  | nil => simp
  | cons c rest => simp [hrest c rfl]

theorem readUntil_escapeChars {stop : Char} (h : stop = '<' ∨ stop = '"') (s : List Char) {rest : List Char}
    (hrest : ∀ c ∈ rest.head?, c = stop) : readUntil stop (escapeChars s ++ rest) = (s, rest) := by
  have hs := not_mem_escapeChars h s
  rw [readUntil, takeWhile_append_stop hs hrest, dropWhile_append_stop hs hrest, decode_escapeChars]

/-- A text that is read as itself before `stop` holds no `stop` and no entity. -/
theorem readUntil_eq_self {stop : Char} {s rest : List Char} (hrest : ∀ c ∈ rest.head?, c = stop)
    (h : (readUntil stop (s ++ rest)).1 = s) : stop ∉ s ∧ decode s = s := by
  have hle : s.length ≤ ((s ++ rest).takeWhile (· ≠ stop)).length := by
    calc s.length = (readUntil stop (s ++ rest)).1.length := by rw [h]
      _ ≤ _ := length_decode_le _
  have hs : stop ∉ s := by
    intro hmem
    obtain ⟨s₁, s₂, rfl, h₁⟩ := List.eq_append_cons_of_mem hmem
    have htake : (s₁ ++ stop :: s₂ ++ rest).takeWhile (· ≠ stop) = s₁ := by
      rw [List.append_assoc, List.cons_append]
      exact takeWhile_append_stop h₁ (by simp)
    rw [htake] at hle
    have hlong : s₁.length < (s₁ ++ stop :: s₂).length := by
      rw [List.length_append, List.length_cons]
      omega
    omega
  refine ⟨hs, ?_⟩
  rwa [readUntil, takeWhile_append_stop hs hrest] at h

/-! ## Names -/

def nameChar (c : Char) : Bool := c.isAlphanum || c = '-'

/-- A name, in lower case, and the rest. -/
def readName (s : List Char) : Option (List Char × List Char) :=
  if s.takeWhile nameChar = [] then none
  else some ((s.takeWhile nameChar).map Char.toLower, s.dropWhile nameChar)

/-- A name as it is read. -/
def IsName (s : String) : Prop :=
  s.toList ≠ [] ∧ ∀ c ∈ s.toList, nameChar c = true ∧ c.toLower = c

theorem readName_append {s : String} (hs : IsName s) {c : Char} (hc : nameChar c = false) (rest : List Char) :
    readName (s.toList ++ c :: rest) = some (s.toList, c :: rest) := by
  have htake : (s.toList ++ c :: rest).takeWhile nameChar = s.toList := by
    rw [List.takeWhile_append_of_pos (fun d hd => (hs.2 d hd).1)]
    simp [hc]
  have hdrop : (s.toList ++ c :: rest).dropWhile nameChar = c :: rest := by
    rw [List.dropWhile_append_of_pos (fun d hd => (hs.2 d hd).1)]
    simp [hc]
  have hlower : s.toList.map Char.toLower = s.toList := by
    rw [List.map_congr_left (fun d hd => (hs.2 d hd).2), List.map_id']
  rw [readName, htake, hdrop, hlower, if_neg hs.1]

/-! ## Trees written out -/

def attribChars : List (String × String) → List Char
  | [] => ['>']
  | (name, value) :: attrib =>
      ' ' :: (name.toList ++ '=' :: '"' :: (escapeChars value.toList ++ '"' :: attribChars attrib))

mutual

def nodeChars : Node → List Char
  | .element tag attrib text children tail =>
      '<' :: (tag.toList ++ (attribChars attrib ++ (escapeChars text.toList ++ (nodesChars children ++
        '<' :: '/' :: (tag.toList ++ '>' :: escapeChars tail.toList)))))
  | .other source tail => source.toList ++ escapeChars tail.toList

def nodesChars : List Node → List Char
  | [] => []
  | n :: ns => nodeChars n ++ nodesChars ns

end

/-! ## Trees read -/

/-- What follows `lit`. -/
def skip (lit s : List Char) : Option (List Char) :=
  if lit <+: s then some (s.drop lit.length) else none

@[simp] theorem skip_one (c : Char) (s : List Char) : skip [c] (c :: s) = some s := by
  simp [skip]

@[simp] theorem skip_two (c d : Char) (s : List Char) : skip [c, d] (c :: d :: s) = some s := by
  simp [skip]

def readAttrib : ℕ → List Char → Option (List (String × String) × List Char)
  | 0, _ => none
  | fuel + 1, s =>
      match s with
      | ' ' :: s => do
          let (name, s) ← readName s
          let s ← skip ['=', '"'] s
          let (value, s) := readUntil '"' s
          let s ← skip ['"'] s
          let (attrib, s) ← readAttrib fuel s
          some ((String.ofList name, String.ofList value) :: attrib, s)
      | s => do
          let s ← skip ['>'] s
          some ([], s)

/-- What follows the closing tag of `tag`. -/
def readClose (tag s : List Char) : Option (List Char) := do
  let s ← skip ['<', '/'] s
  let (name, s) ← readName s
  if name = tag then skip ['>'] s else none

/-- Nodes up to the end or to a closing tag. -/
def readNodes : ℕ → List Char → Option (List Node × List Char)
  | 0, _ => none
  | fuel + 1, s =>
      match s with
      | '<' :: '/' :: _ => some ([], s)
      | '<' :: s => do
          let (tag, s) ← readName s
          let (attrib, s) ← readAttrib fuel s
          let (text, s) := readUntil '<' s
          let (children, s) ← readNodes fuel s
          let s ← readClose tag s
          let (tail, s) := readUntil '<' s
          let (nodes, s) ← readNodes fuel s
          some (.element (String.ofList tag) attrib (String.ofList text) children (String.ofList tail) :: nodes, s)
      | _ => some ([], s)

/-! ## What is written is read back -/

/-- The names are read as they are, and every node is an element. -/
abbrev Proper : List Node → Prop := NamedAll IsName (fun _ => False)

theorem readAttrib_attribChars {attrib : List (String × String)} (h : ∀ a ∈ attrib, IsName a.1)
    (rest : List Char) {fuel : ℕ} (hfuel : (attribChars attrib ++ rest).length < fuel) :
    readAttrib fuel (attribChars attrib ++ rest) = some (attrib, rest) := by
  induction attrib generalizing fuel with
  | nil =>
    obtain ⟨fuel, rfl⟩ : ∃ k, fuel = k + 1 := ⟨fuel - 1, by omega⟩
    show readAttrib (fuel + 1) ('>' :: rest) = _
    simp [readAttrib]
  | cons a attrib ih =>
    obtain ⟨name, value⟩ := a
    obtain ⟨fuel, rfl⟩ : ∃ k, fuel = k + 1 := ⟨fuel - 1, by omega⟩
    have hname : IsName name := h _ (List.mem_cons_self ..)
    have hrest : (attribChars attrib ++ rest).length < fuel := by
      simp [attribChars] at hfuel ⊢
      omega
    have ih := ih (fun a ha => h a (List.mem_cons_of_mem _ ha)) hrest
    have hs : attribChars ((name, value) :: attrib) ++ rest
        = ' ' :: (name.toList ++ '=' :: '"' :: (escapeChars value.toList ++
          '"' :: (attribChars attrib ++ rest))) := by
      simp [attribChars]
    rw [hs]
    simp only [readAttrib, readName_append hname (c := '=') (by decide), Option.bind_eq_bind,
      Option.bind_some, skip_two]
    rw [readUntil_escapeChars (Or.inr rfl) _ (by simp)]
    simp only [skip_one, Option.bind_some, ih, String.ofList_toList]

theorem readClose_append {tag : String} (h : IsName tag) (rest : List Char) :
    readClose tag.toList ('<' :: '/' :: (tag.toList ++ '>' :: rest)) = some rest := by
  simp only [readClose, skip_two, readName_append h (c := '>') (by decide), skip_one, Option.bind_eq_bind,
    Option.bind_some, if_true]

/-- Where the nodes of a fragment end. -/
def Ends (rest : List Char) : Prop := rest = [] ∨ ∃ s, rest = '<' :: '/' :: s

theorem Ends.head {rest : List Char} (h : Ends rest) : ∀ c ∈ rest.head?, c = '<' := by
  rcases h with rfl | ⟨s, rfl⟩ <;> simp

theorem readNodes_ends {rest : List Char} (h : Ends rest) (fuel : ℕ) :
    readNodes (fuel + 1) rest = some ([], rest) := by
  rcases h with rfl | ⟨s, rfl⟩ <;> simp [readNodes]

theorem head_nodesChars {ns : List Node} (hns : Proper ns) {rest : List Char}
    (hrest : ∀ c ∈ rest.head?, c = '<') : ∀ c ∈ (nodesChars ns ++ rest).head?, c = '<' := by
  cases ns with
  | nil => exact hrest
  | cons n ns =>
    cases n with
    | element => simp [nodesChars, nodeChars]
    | other => exact absurd hns.1 id

theorem readUntil_text (s : String) {rest : List Char} (hrest : ∀ c ∈ rest.head?, c = '<') :
    readUntil '<' (escapeChars s.toList ++ rest) = (s.toList, rest) :=
  readUntil_escapeChars (Or.inl rfl) _ hrest

/-- An element, from the name on. -/
theorem readNodes_element {tag : String} (htag : IsName tag) (fuel : ℕ) (rest : List Char) :
    readNodes (fuel + 1) ('<' :: (tag.toList ++ rest)) = (do
      let (tag, s) ← readName (tag.toList ++ rest)
      let (attrib, s) ← readAttrib fuel s
      let (text, s) := readUntil '<' s
      let (children, s) ← readNodes fuel s
      let s ← readClose tag s
      let (tail, s) := readUntil '<' s
      let (nodes, s) ← readNodes fuel s
      some (.element (String.ofList tag) attrib (String.ofList text) children (String.ofList tail) :: nodes, s)) := by
  obtain ⟨hne, hchars⟩ := htag
  cases h : tag.toList with
  | nil => exact absurd h hne
  | cons c cs =>
    have hc : c ≠ '/' := by
      rintro rfl
      have := (hchars '/' (by simp [h])).1
      revert this
      decide
    rw [List.cons_append, readNodes]
    simp [hc]

mutual

theorem readNodes_cons (n : Node) (ns : List Node) (hn : n.Named IsName (fun _ => False)) (hns : Proper ns)
    (ih : ∀ (rest : List Char) (fuel : ℕ), Ends rest → (nodesChars ns ++ rest).length < fuel →
      readNodes fuel (nodesChars ns ++ rest) = some (ns, rest))
    (rest : List Char) (fuel : ℕ) (hrest : Ends rest) (hfuel : (nodesChars (n :: ns) ++ rest).length < fuel) :
    readNodes fuel (nodesChars (n :: ns) ++ rest) = some (n :: ns, rest) := by
  match n with
  | .other _ _ => exact hn.elim
  | .element tag attrib text children tail =>
    obtain ⟨htag, hattrib, hchildren⟩ := hn
    obtain ⟨fuel, rfl⟩ : ∃ k, fuel = k + 1 := ⟨fuel - 1, by omega⟩
    -- what is left after the opening tag, the children and the closing tag
    let s₃ := nodesChars ns ++ rest
    let s₂ := '<' :: '/' :: (tag.toList ++ '>' :: (escapeChars tail.toList ++ s₃))
    let s₁ := escapeChars text.toList ++ (nodesChars children ++ s₂)
    have hs : nodesChars (.element tag attrib text children tail :: ns) ++ rest
        = '<' :: (tag.toList ++ (attribChars attrib ++ s₁)) := by
      simp [nodesChars, nodeChars, s₁, s₂, s₃]
    rw [hs] at hfuel ⊢
    have hlength : (attribChars attrib ++ s₁).length < fuel := by
      simp at hfuel ⊢
      omega
    have hlength₂ : (nodesChars children ++ s₂).length < fuel := by
      simp [s₁] at hlength ⊢
      omega
    have hlength₃ : s₃.length < fuel := by
      simp [s₂] at hlength₂ ⊢
      omega
    have hname : ∃ c cs, attribChars attrib ++ s₁ = c :: cs ∧ nameChar c = false := by
      cases attrib with
      | nil => exact ⟨'>', _, rfl, by decide⟩
      | cons a attrib => exact ⟨' ', _, rfl, by decide⟩
    obtain ⟨c, cs, hcs, hc⟩ := hname
    have hread : readName (tag.toList ++ (attribChars attrib ++ s₁)) = some (tag.toList, attribChars attrib ++ s₁) := by
      rw [hcs, readName_append htag hc]
    have htext : readUntil '<' s₁ = (text.toList, nodesChars children ++ s₂) :=
      readUntil_text text (head_nodesChars hchildren (by simp [s₂]))
    have htail : readUntil '<' (escapeChars tail.toList ++ s₃) = (tail.toList, s₃) :=
      readUntil_text tail (head_nodesChars hns hrest.head)
    rw [readNodes_element htag, hread]
    simp only [Option.bind_eq_bind, Option.bind_some]
    rw [readAttrib_attribChars hattrib s₁ hlength]
    simp only [Option.bind_some]
    rw [htext]
    simp only [readNodes_nodesChars children hchildren s₂ fuel (Or.inr ⟨_, rfl⟩) hlength₂, Option.bind_some]
    rw [readClose_append htag]
    simp only [Option.bind_some]
    have hnodes : readNodes fuel s₃ = some (ns, rest) := ih rest fuel hrest hlength₃
    rw [htail]
    simp only [hnodes, Option.bind_some, String.ofList_toList]

theorem readNodes_nodesChars (ns : List Node) (hns : Proper ns) (rest : List Char) (fuel : ℕ) (hrest : Ends rest)
    (hfuel : (nodesChars ns ++ rest).length < fuel) :
    readNodes fuel (nodesChars ns ++ rest) = some (ns, rest) := by
  match ns with
  | [] =>
    obtain ⟨fuel, rfl⟩ : ∃ k, fuel = k + 1 := ⟨fuel - 1, by omega⟩
    exact readNodes_ends hrest fuel
  | n :: ns =>
    exact readNodes_cons n ns hns.1 hns.2 (readNodes_nodesChars ns hns.2) rest fuel hrest hfuel

end

/-! ## Texts and fragments -/

def escape (s : String) : String := String.ofList (escapeChars s.toList)

def tostring (n : Node) : String := String.ofList (nodeChars n)

/-- What the nodes are written as, one after the other. -/
def tostrings (ns : List Node) : String := String.join (ns.map tostring)

/-- A text, and nodes up to the end. -/
def parse (s : String) : Option Fragment := do
  let (text, s) := readUntil '<' s.toList
  let (children, s) ← readNodes (s.length + 1) s
  if s = [] then some ⟨String.ofList text, children⟩ else none

theorem toList_tostrings (ns : List Node) : (tostrings ns).toList = nodesChars ns := by
  unfold tostrings
  induction ns with
  | nil => rfl
  | cons n ns ih => simp [nodesChars, tostring, ih]

/-- A text in front of nodes, whatever the text stands for. -/
theorem parse_text {s : String} {text : List Char} {ns : List Node} (hns : Proper ns)
    (h : readUntil '<' (s.toList ++ nodesChars ns) = (text, nodesChars ns)) :
    parse (s ++ tostrings ns) = some ⟨String.ofList text, ns⟩ := by
  have hnodes := readNodes_nodesChars ns hns [] ((nodesChars ns).length + 1) (Or.inl rfl) (by simp)
  rw [List.append_nil] at hnodes
  unfold parse
  rw [String.toList_append, toList_tostrings, h]
  simp [hnodes]

/-- **What is written is read back.** -/
theorem parse_serialize (f : Fragment) (hf : Proper f.children) :
    parse (escape f.text ++ tostrings f.children) = some f := by
  have h : readUntil '<' ((escape f.text).toList ++ nodesChars f.children)
      = (f.text.toList, nodesChars f.children) := by
    rw [escape, String.toList_ofList]
    have hhead : ∀ c ∈ (nodesChars f.children ++ []).head?, c = '<' := head_nodesChars hf (by simp)
    exact readUntil_text f.text (by simpa using hhead)
  rw [parse_text hf h, String.ofList_toList]

/-- A text that is not escaped is read as itself exactly when it holds no `<` and no entity; what follows it
does not matter. -/
theorem parse_raw {s : String} {ns : List Node} (hns : Proper ns) :
    parse (s ++ tostrings ns) = some ⟨s, ns⟩ ↔ '<' ∉ s.toList ∧ decode s.toList = s.toList := by
  have hhead : ∀ c ∈ (nodesChars ns).head?, c = '<' := by
    have hrest : ∀ c ∈ (nodesChars ns ++ []).head?, c = '<' := head_nodesChars hns (by simp)
    simpa using hrest
  constructor
  · intro h
    refine readUntil_eq_self hhead ?_
    unfold parse at h
    rw [String.toList_append, toList_tostrings] at h
    simp only [Option.bind_eq_bind, Option.bind_eq_some_iff] at h
    obtain ⟨⟨children, rest⟩, -, h⟩ := h
    split_ifs at h
    simp only [Option.some.injEq, Fragment.mk.injEq] at h
    have htext := congrArg String.toList h.1
    rwa [String.toList_ofList] at htext
  · rintro ⟨hmem, hdecode⟩
    have h : readUntil '<' (s.toList ++ nodesChars ns) = (s.toList, nodesChars ns) := by
      rw [readUntil, takeWhile_append_stop hmem hhead, dropWhile_append_stop hmem hhead, hdecode]
    rw [parse_text hns h, String.ofList_toList]

/-! ## What is read has names -/

theorem toLower_nameChar {c : Char} (h : nameChar c = true) :
    nameChar c.toLower = true ∧ c.toLower.toLower = c.toLower := by
  unfold Char.toLower
  split
  · next hupper =>
    have hlower : ¬ (c.val + ('a'.val - 'A'.val) ≥ 'A'.val ∧ c.val + ('a'.val - 'A'.val) ≤ 'Z'.val) ∧
        c.val + ('a'.val - 'A'.val) ≥ 'a'.val ∧ c.val + ('a'.val - 'A'.val) ≤ 'z'.val := by
      simp only [ge_iff_le, UInt32.le_iff_toNat_le, UInt32.toNat_add, seval] at hupper ⊢
      omega
    refine ⟨?_, ?_⟩
    · have h97 : 97 ≤ c.val + 32 ∧ c.val + 32 ≤ 122 := hlower.2
      delta nameChar Char.isAlphanum Char.isAlpha Char.isLower
      simp [h97]
    · rw [dif_neg hlower.1]
  · exact ⟨h, rfl⟩

theorem readName_isName {s name rest : List Char} (h : readName s = some (name, rest)) :
    IsName (String.ofList name) := by
  unfold readName at h
  split_ifs at h with hne
  simp only [Option.some.injEq, Prod.mk.injEq] at h
  obtain ⟨rfl, -⟩ := h
  rw [IsName, String.toList_ofList]
  refine ⟨by simpa using hne, fun c hc => ?_⟩
  obtain ⟨d, hd, rfl⟩ := List.mem_map.1 hc
  exact toLower_nameChar (List.all_eq_true.1 List.all_takeWhile d hd)

theorem readAttrib_isName {fuel : ℕ} {s rest : List Char} {attrib : List (String × String)}
    (h : readAttrib fuel s = some (attrib, rest)) : ∀ a ∈ attrib, IsName a.1 := by
  induction fuel generalizing s attrib rest with
  | zero => cases h
  | succ fuel ih =>
    unfold readAttrib at h
    split at h
    · simp only [Option.bind_eq_bind, Option.bind_eq_some_iff, Option.some.injEq, Prod.mk.injEq] at h
      obtain ⟨⟨name, s₁⟩, hname, s₂, -, s₃, -, ⟨attrib', s₄⟩, hattrib, rfl, -⟩ := h
      intro a ha
      rcases List.mem_cons.1 ha with rfl | ha
      · exact readName_isName hname
      · exact ih hattrib a ha
    · simp only [Option.bind_eq_bind, Option.bind_eq_some_iff, Option.some.injEq, Prod.mk.injEq] at h
      obtain ⟨s₁, -, rfl, -⟩ := h
      simp

theorem readNodes_proper {fuel : ℕ} {s rest : List Char} {ns : List Node}
    (h : readNodes fuel s = some (ns, rest)) : Proper ns := by
  induction fuel generalizing s ns rest with
  | zero => cases h
  | succ fuel ih =>
    unfold readNodes at h
    split at h
    · simp only [Option.some.injEq, Prod.mk.injEq] at h
      rw [← h.1]
      trivial
    · simp only [Option.bind_eq_bind, Option.bind_eq_some_iff, Option.some.injEq, Prod.mk.injEq] at h
      obtain ⟨⟨tag, s₁⟩, htag, ⟨attrib, s₂⟩, hattrib, ⟨children, s₃⟩, hchildren, s₄, -, ⟨nodes, s₅⟩, hnodes, rfl, -⟩ :=
        h
      exact ⟨⟨readName_isName htag, readAttrib_isName hattrib, ih hchildren⟩, ih hnodes⟩
    · simp only [Option.some.injEq, Prod.mk.injEq] at h
      rw [← h.1]
      trivial

theorem parse_proper {s : String} {f : Fragment} (h : parse s = some f) : Proper f.children := by
  unfold parse at h
  simp only [Option.bind_eq_bind, Option.bind_eq_some_iff] at h
  obtain ⟨⟨children, rest⟩, hchildren, h⟩ := h
  split_ifs at h
  simp only [Option.some.injEq] at h
  rw [← h]
  exact readNodes_proper hchildren

end Totem.Lib.Markup
