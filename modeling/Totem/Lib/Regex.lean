import Mathlib.Computability.Language

/-!
# Totem.Lib.Regex — a backtracking matcher, and the words of its pattern

The ways a pattern matches at the start of a text are listed in the order a backtracking matcher tries them: the
first is the match, and the others are what it falls back to.  `findall` goes on after each match.

* `mem_successes`: the ways are those of the language of the pattern.
* `findall_barrier`: nothing is matched across a symbol no class of the pattern has.
-/

namespace Totem.Lib

/-- A pattern over classes of symbols; `star` takes as much as it can first. -/
inductive Regex (α : Type*) where
  | cls (p : α → Bool)
  | seq (r s : Regex α)
  | alt (r s : Regex α)
  | star (r : Regex α)

namespace Regex

variable {α β : Type*}

/-! ## The pattern and the matcher -/

/-- `r+`. -/
def plus (r : Regex α) : Regex α := .seq r (.star r)

/-- The empty word. -/
def empty : Regex α := .star (.cls fun _ => false)

/-- `r?`. -/
def opt (r : Regex α) : Regex α := .alt r .empty

/-- `r{n}`. -/
def times : ℕ → Regex α → Regex α
  | 0, _ => .empty
  | n + 1, r => .seq r (times n r)

/-- One word. -/
def word [DecidableEq α] : List α → Regex α
  | [] => .empty
  | c :: w => .seq (.cls fun d => decide (d = c)) (word w)

/-- The words of a pattern. -/
def lang : Regex α → Language α
  | .cls p => {x | ∃ c, p c = true ∧ x = [c]}
  | .seq r s => r.lang * s.lang
  | .alt r s => r.lang + s.lang
  | .star r => KStar.kstar r.lang

/-- `f` as often as it takes something away, at most `n` times; then as often but once, and so on. -/
def repeated (f : List α → List (List α × List α)) : ℕ → List α → List (List α × List α)
  | 0, w => [([], w)]
  | n + 1, w =>
      (((f w).filter fun x => decide (x.2.length < w.length)).flatMap fun x =>
        (repeated f n x.2).map fun y => (x.1 ++ y.1, y.2)) ++ [([], w)]

/-- The ways to match at the start of a text, each with what it leaves. -/
def successes : Regex α → List α → List (List α × List α)
  | .cls _, [] => []
  | .cls p, c :: w => if p c then [([c], w)] else []
  | .seq r s, w => (r.successes w).flatMap fun x => (s.successes x.2).map fun y => (x.1 ++ y.1, y.2)
  | .alt r s, w => r.successes w ++ s.successes w
  | .star r, w => repeated r.successes w.length w

/-! ## The ways are those of the language -/

section

variable {f : List α → List (List α × List α)} {l : Language α}

theorem mem_repeated_sound (hf : ∀ w x, x ∈ f w ↔ x.1 ∈ l ∧ x.1 ++ x.2 = w) {n : ℕ} {w : List α}
    {x : List α × List α} (h : x ∈ repeated f n w) : x.1 ∈ KStar.kstar l ∧ x.1 ++ x.2 = w := by
  induction n generalizing w x with
  | zero =>
    rw [repeated, List.mem_singleton] at h
    subst h
    exact ⟨Language.nil_mem_kstar l, rfl⟩
  | succ n ih =>
    rw [repeated, List.mem_append, List.mem_singleton] at h
    obtain h | rfl := h
    · simp only [List.mem_flatMap, List.mem_filter, List.mem_map] at h
      obtain ⟨y, ⟨hy, -⟩, z, hz, rfl⟩ := h
      obtain ⟨hyl, hyw⟩ := (hf w y).1 hy
      obtain ⟨hzl, hzw⟩ := ih hz
      refine ⟨?_, by rw [List.append_assoc, hzw, hyw]⟩
      rw [← Language.one_add_self_mul_kstar_eq_kstar]
      exact Or.inr (Language.mem_mul.2 ⟨y.1, hyl, z.1, hzl, rfl⟩)
    · exact ⟨Language.nil_mem_kstar l, rfl⟩

theorem mem_repeated_flatten (hf : ∀ w x, x ∈ f w ↔ x.1 ∈ l ∧ x.1 ++ x.2 = w) {pieces : List (List α)}
    (hpieces : ∀ y ∈ pieces, y ∈ l ∧ y ≠ []) {n : ℕ} {rest : List α} (hn : (pieces.flatten ++ rest).length ≤ n) :
    (pieces.flatten, rest) ∈ repeated f n (pieces.flatten ++ rest) := by
  induction pieces generalizing n with
  | nil => cases n <;> simp [repeated]
  | cons y pieces ih =>
    obtain ⟨hyl, hyne⟩ := hpieces y (by simp)
    have hpos : 0 < y.length := List.length_pos_iff.2 hyne
    cases n with
    | zero =>
      rw [List.flatten_cons, List.append_assoc, List.length_append] at hn
      omega
    | succ n =>
      rw [List.flatten_cons, List.append_assoc, List.length_append] at hn
      have hrest := ih (fun z hz => hpieces z (List.mem_cons_of_mem _ hz)) (n := n) (by omega)
      rw [List.flatten_cons, List.append_assoc, repeated, List.mem_append]
      refine Or.inl (List.mem_flatMap.2 ⟨(y, pieces.flatten ++ rest), List.mem_filter.2 ⟨(hf _ _).2 ⟨hyl, rfl⟩, ?_⟩,
        List.mem_map.2 ⟨_, hrest, rfl⟩⟩)
      simp only [decide_eq_true_eq, List.length_append] at hn ⊢
      omega

theorem mem_repeated (hf : ∀ w x, x ∈ f w ↔ x.1 ∈ l ∧ x.1 ++ x.2 = w) {n : ℕ} {w : List α} (hn : w.length ≤ n)
    {x : List α × List α} : x ∈ repeated f n w ↔ x.1 ∈ KStar.kstar l ∧ x.1 ++ x.2 = w := by
  refine ⟨mem_repeated_sound hf, ?_⟩
  rintro ⟨hl, rfl⟩
  obtain ⟨x, rest⟩ := x
  obtain ⟨pieces, rfl, hpieces⟩ := Language.mem_kstar_iff_exists_nonempty.1 hl
  exact mem_repeated_flatten hf hpieces hn

end

/-- **The matcher tries exactly the ways to split the text after a word of the pattern.** -/
theorem mem_successes (r : Regex α) (w : List α) (x : List α × List α) :
    x ∈ r.successes w ↔ x.1 ∈ r.lang ∧ x.1 ++ x.2 = w := by
  induction r generalizing w x with
  | cls p =>
    obtain ⟨x, rest⟩ := x
    cases w with
    | nil =>
      simp only [successes, lang, List.not_mem_nil, false_iff, List.append_eq_nil_iff]
      rintro ⟨⟨c, -, hc⟩, rfl, -⟩
      cases hc
    | cons c w =>
      rw [successes]
      by_cases hp : p c = true
      · rw [if_pos hp, List.mem_singleton, Prod.mk.injEq]
        constructor
        · rintro ⟨rfl, rfl⟩
          exact ⟨⟨c, hp, rfl⟩, rfl⟩
        · rintro ⟨⟨d, -, rfl⟩, heq⟩
          rw [List.singleton_append, List.cons.injEq] at heq
          exact ⟨by rw [heq.1], heq.2⟩
      · rw [if_neg hp]
        simp only [List.not_mem_nil, false_iff]
        rintro ⟨⟨d, hd, rfl⟩, heq⟩
        rw [List.singleton_append, List.cons.injEq] at heq
        exact hp (heq.1 ▸ hd)
  | seq r s ihr ihs =>
    rw [successes, lang, Language.mem_mul, List.mem_flatMap]
    constructor
    · rintro ⟨y, hy, hx⟩
      obtain ⟨z, hz, rfl⟩ := List.mem_map.1 hx
      obtain ⟨hyl, hyw⟩ := (ihr _ _).1 hy
      obtain ⟨hzl, hzw⟩ := (ihs _ _).1 hz
      exact ⟨⟨y.1, hyl, z.1, hzl, rfl⟩, by rw [List.append_assoc, hzw, hyw]⟩
    · rintro ⟨⟨y, hy, z, hz, hyz⟩, hw⟩
      refine ⟨(y, z ++ x.2), (ihr _ _).2 ⟨hy, ?_⟩, List.mem_map.2 ⟨(z, x.2), (ihs _ _).2 ⟨hz, rfl⟩, ?_⟩⟩
      · rw [← List.append_assoc, hyz, hw]
      · rw [hyz]
  | alt r s ihr ihs =>
    rw [successes, lang, Language.mem_add, List.mem_append, ihr, ihs, or_and_right]
  | star r ih =>
    rw [successes, lang, mem_repeated ih le_rfl]

/-- `re.fullmatch`. -/
def fullmatch (r : Regex α) (w : List α) : Bool := (r.successes w).any fun x => x.2.isEmpty

theorem fullmatch_iff {r : Regex α} {w : List α} : r.fullmatch w = true ↔ w ∈ r.lang := by
  rw [fullmatch, List.any_eq_true]
  constructor
  · rintro ⟨x, hx, hempty⟩
    obtain ⟨hl, hw⟩ := (mem_successes r w x).1 hx
    rw [List.isEmpty_iff.1 hempty, List.append_nil] at hw
    exact hw ▸ hl
  · intro h
    exact ⟨(w, []), (mem_successes r w (w, [])).2 ⟨h, List.append_nil w⟩, rfl⟩

/-- Each class of the pattern is within `q`. -/
def Within (q : α → Prop) : Regex α → Prop
  | .cls p => ∀ c, p c = true → q c
  | .seq r s => r.Within q ∧ s.Within q
  | .alt r s => r.Within q ∧ s.Within q
  | .star r => r.Within q

/-- The words of a pattern are made of the symbols of its classes. -/
theorem forall_mem_of_within {q : α → Prop} {r : Regex α} (h : r.Within q) {x : List α} (hx : x ∈ r.lang) :
    ∀ c ∈ x, q c := by
  induction r generalizing x with
  | cls p =>
    obtain ⟨c, hc, rfl⟩ := hx
    intro d hd
    rw [List.mem_singleton] at hd
    exact hd ▸ h c hc
  | seq r s ihr ihs =>
    obtain ⟨y, hy, z, hz, rfl⟩ := hx
    exact List.forall_mem_append.2 ⟨ihr h.1 hy, ihs h.2 hz⟩
  | alt r s ihr ihs =>
    rcases hx with hx | hx
    · exact ihr h.1 hx
    · exact ihs h.2 hx
  | star r ih =>
    obtain ⟨pieces, rfl, hpieces⟩ := Language.mem_kstar.1 hx
    intro c hc
    obtain ⟨y, hy, hcy⟩ := List.mem_flatten.1 hc
    exact ih h (hpieces y hy) c hcy

theorem within_empty {q : α → Prop} : (empty : Regex α).Within q := fun _ hc => Bool.noConfusion hc

theorem within_opt {q : α → Prop} {r : Regex α} (h : r.Within q) : r.opt.Within q := ⟨h, within_empty⟩

theorem within_times {q : α → Prop} {r : Regex α} (h : r.Within q) (n : ℕ) : (times n r).Within q := by
  induction n with
  | zero => exact within_empty
  | succ n ih => exact ⟨h, ih⟩

theorem within_word [DecidableEq α] {q : α → Prop} {w : List α} (h : ∀ c ∈ w, q c) : (word w).Within q := by
  induction w with
  | nil => exact within_empty
  | cons c w ih =>
    obtain ⟨hc, hw⟩ := List.forall_mem_cons.1 h
    exact ⟨fun d hd => of_decide_eq_true hd ▸ hc, ih hw⟩

theorem mem_lang_star_cls {p : α → Bool} {w : List α} (h : ∀ c ∈ w, p c = true) : w ∈ (star (cls p)).lang := by
  refine Language.mem_kstar.2 ⟨w.map fun c => [c], ?_, ?_⟩
  · induction w with
    | nil => rfl
    | cons c w ih => rw [List.map_cons, List.flatten_cons, ← ih fun d hd => h d (List.mem_cons_of_mem _ hd)]; rfl
  · intro y hy
    obtain ⟨c, hc, rfl⟩ := List.mem_map.1 hy
    exact ⟨c, h c hc, rfl⟩

theorem mem_lang_plus {r : Regex α} {x : List α} (h : x ∈ r.lang) : x ∈ r.plus.lang :=
  Language.mem_mul.2 ⟨x, h, [], Language.nil_mem_kstar _, List.append_nil x⟩

/-! ## The first way takes as much as it can -/

theorem head?_repeated_cls (p : α → Bool) {n : ℕ} {w : List α} (hn : w.length ≤ n) :
    (repeated (successes (.cls p)) n w).head? = some (w.takeWhile p, w.dropWhile p) := by
  induction w generalizing n with
  | nil => cases n <;> simp [repeated, successes]
  | cons c w ih =>
    rw [List.length_cons] at hn
    obtain ⟨n, rfl⟩ : ∃ k, n = k + 1 := ⟨n - 1, by omega⟩
    by_cases hp : p c = true
    · have hrest := ih (n := n) (by omega)
      simp [repeated, successes, hp, List.head?_append, hrest]
    · simp [repeated, successes, hp]

theorem head?_successes_plus_cls {p : α → Bool} {c : α} (hp : p c = true) (w : List α) :
    ((plus (.cls p)).successes (c :: w)).head? = some ((c :: w).takeWhile p, (c :: w).dropWhile p) := by
  have hrest := head?_repeated_cls p (le_refl w.length)
  simp [plus, successes, hp, hrest]

theorem successes_plus_cls_of_not {p : α → Bool} {c : α} (hp : p c = false) (w : List α) :
    (plus (.cls p)).successes (c :: w) = [] := by
  simp [plus, successes, hp]

/-! ## A symbol the pattern has nowhere -/

/-- No class of the pattern has `c`. -/
def Avoids (c : α) : Regex α → Prop
  | .cls p => p c = false
  | .seq r s => r.Avoids c ∧ s.Avoids c
  | .alt r s => r.Avoids c ∧ s.Avoids c
  | .star r => r.Avoids c

/-- A way to match, in a text that goes on. -/
def extend (tail : List α) (x : List α × List α) : List α × List α := (x.1, x.2 ++ tail)

@[simp] theorem extend_fst (tail : List α) (x : List α × List α) : (extend tail x).1 = x.1 := rfl

@[simp] theorem extend_snd (tail : List α) (x : List α × List α) : (extend tail x).2 = x.2 ++ tail := rfl

theorem repeated_barrier {f : List α → List (List α × List α)} {c : α} {B : List α}
    (hf : ∀ A, f (A ++ c :: B) = (f A).map (extend (c :: B))) {n m : ℕ} {A : List α}
    (hn : (A ++ c :: B).length ≤ n) (hm : A.length ≤ m) :
    repeated f n (A ++ c :: B) = (repeated f m A).map (extend (c :: B)) := by
  have hfilter (A : List α) : ((f (A ++ c :: B)).filter fun x => decide (x.2.length < (A ++ c :: B).length))
      = ((f A).filter fun x => decide (x.2.length < A.length)).map (extend (c :: B)) := by
    rw [hf, List.filter_map]
    congr 2
    funext x
    simp
  induction n generalizing m A with
  | zero => simp at hn
  | succ n ih =>
    cases m with
    | zero =>
      obtain rfl : A = [] := List.eq_nil_of_length_eq_zero (by omega)
      simp only [repeated]
      rw [hfilter]
      simp [extend]
    | succ m =>
      rw [repeated, repeated, hfilter, List.map_append, List.flatMap_map, List.map_flatMap]
      congr 1
      refine List.flatMap_congr fun x hx => ?_
      have hlt : x.2.length < A.length := by simpa using (List.mem_filter.1 hx).2
      rw [extend_snd, ih (A := x.2) (m := m) (by simp at hn ⊢; omega) (by omega), List.map_map, List.map_map]
      rfl

/-- What is matched before a symbol the pattern has nowhere is what is matched without what follows. -/
theorem successes_barrier {c : α} {r : Regex α} (h : r.Avoids c) (A B : List α) :
    r.successes (A ++ c :: B) = (r.successes A).map (extend (c :: B)) := by
  induction r generalizing A with
  | cls p =>
    cases A with
    | nil =>
      have hc : p c = false := h
      simp [successes, hc]
    | cons a A => by_cases hp : p a = true <;> simp [successes, hp, extend]
  | seq r s ihr ihs =>
    rw [successes, successes, ihr h.1, List.flatMap_map, List.map_flatMap]
    refine List.flatMap_congr fun x _ => ?_
    rw [extend_snd, ihs h.2, List.map_map, List.map_map]
    rfl
  | alt r s ihr ihs => rw [successes, successes, ihr h.1, ihs h.2, List.map_append]
  | star r ih => exact repeated_barrier (ih h) le_rfl le_rfl

end Regex

/-! ## All the matches of a text -/

section Findall

variable {α β : Type*}

/-- What `f` finds, one after the other; where it finds nothing the text is read one symbol further on. -/
def scanAll (f : List α → Option (β × List α)) : ℕ → List α → List β
  | 0, _ => []
  | _ + 1, [] => []
  | n + 1, c :: w =>
      match f (c :: w) with
      | some (found, rest) => found :: scanAll f n rest
      | none => scanAll f n w

variable {f : List α → Option (β × List α)}

theorem scanAll_nil (n : ℕ) : scanAll f n [] = [] := by
  cases n <;> rfl

theorem scanAll_fuel (hf : ∀ w found rest, f w = some (found, rest) → rest.length < w.length) {n m : ℕ} {w : List α}
    (hn : w.length ≤ n) (hm : w.length ≤ m) : scanAll f n w = scanAll f m w := by
  induction n generalizing m w with
  | zero =>
    obtain rfl : w = [] := List.eq_nil_of_length_eq_zero (by omega)
    rw [scanAll_nil, scanAll_nil]
  | succ n ih =>
    cases w with
    | nil => rw [scanAll_nil, scanAll_nil]
    | cons c w =>
      rw [List.length_cons] at hn hm
      obtain ⟨m, rfl⟩ : ∃ k, m = k + 1 := ⟨m - 1, by omega⟩
      rw [scanAll, scanAll]
      cases hfound : f (c :: w) with
      | none => exact ih (by omega) (by omega)
      | some found =>
        have hlt := hf _ _ _ hfound
        rw [List.length_cons] at hlt
        exact congrArg _ (ih (by omega) (by omega))

theorem scanAll_barrier (hf : ∀ w found rest, f w = some (found, rest) → rest.length < w.length) {c : α} {B : List α}
    (hbarrier : ∀ A, f (A ++ c :: B) = (f A).map fun x => (x.1, x.2 ++ c :: B)) {n : ℕ} {A : List α}
    (hn : (A ++ c :: B).length ≤ n) :
    scanAll f n (A ++ c :: B) = scanAll f A.length A ++ scanAll f B.length B := by
  have hnil : f [] = none := by
    cases hfound : f [] with
    | none => rfl
    | some found => exact absurd (hf _ _ _ hfound) (by simp)
  induction n generalizing A with
  | zero => simp at hn
  | succ n ih =>
    cases A with
    | nil =>
      have hnone : f (c :: B) = none := by simpa [hnil] using hbarrier []
      rw [List.nil_append, scanAll, hnone, scanAll_nil, List.nil_append]
      exact scanAll_fuel hf (by simpa using hn) le_rfl
    | cons a A =>
      rw [List.cons_append, scanAll, ← List.cons_append, hbarrier, List.length_cons, scanAll]
      simp only [List.cons_append, List.length_cons] at hn
      cases hfound : f (a :: A) with
      | none => exact ih (by omega)
      | some found =>
        have hlt := hf _ _ _ hfound
        rw [List.length_cons] at hlt
        rw [Option.map_some]
        simp only [List.cons_append, List.cons.injEq, true_and]
        rw [ih (by simp at hn ⊢; omega), scanAll_fuel hf le_rfl (m := A.length) (by omega)]

/-- A pattern of two groups and what stands between them. -/
structure GroupPattern (α : Type*) where
  first : Regex α
  between : Regex α
  second : Regex α

namespace GroupPattern

variable (p : GroupPattern α)

/-- The ways to match: the two groups, and what is left. -/
def successes (w : List α) : List ((List α × List α) × List α) :=
  (p.first.successes w).flatMap fun x =>
    (p.between.successes x.2).flatMap fun y => (p.second.successes y.2).map fun z => ((x.1, z.1), z.2)

/-- `re.match`. -/
def matchAt (w : List α) : Option ((List α × List α) × List α) := (p.successes w).head?

/-- `re.findall`, of a pattern that does not match the empty word. -/
def findall (w : List α) : List (List α × List α) := scanAll p.matchAt w.length w

variable {p}

theorem mem_successes {w x z rest : List α} : ((x, z), rest) ∈ p.successes w ↔
    ∃ y, x ∈ p.first.lang ∧ y ∈ p.between.lang ∧ z ∈ p.second.lang ∧ x ++ (y ++ (z ++ rest)) = w := by
  constructor
  · intro h
    simp only [successes, List.mem_flatMap, List.mem_map, Regex.mem_successes] at h
    obtain ⟨a, ⟨ha, rfl⟩, b, ⟨hb, hab⟩, d, ⟨hd, hbd⟩, heq⟩ := h
    cases heq
    exact ⟨b.1, ha, hb, hd, by rw [hbd, hab]⟩
  · rintro ⟨y, hx, hy, hz, rfl⟩
    simp only [successes, List.mem_flatMap, List.mem_map, Regex.mem_successes]
    exact ⟨(x, y ++ (z ++ rest)), ⟨hx, rfl⟩, (y, z ++ rest), ⟨hy, rfl⟩, (z, rest), ⟨hz, rfl⟩, rfl⟩

theorem matchAt_mem {w x z rest : List α} (h : p.matchAt w = some ((x, z), rest)) :
    ∃ y, x ∈ p.first.lang ∧ y ∈ p.between.lang ∧ z ∈ p.second.lang ∧ x ++ (y ++ (z ++ rest)) = w :=
  mem_successes.1 (List.mem_of_head? h)

/-- The first way of the first group is the match, where the rest of the pattern can go on from it. -/
theorem matchAt_of_head {w x w' y z rest : List α} (hhead : (p.first.successes w).head? = some (x, w'))
    (hy : y ∈ p.between.lang) (hz : z ∈ p.second.lang) (hw : y ++ (z ++ rest) = w') :
    ∃ z rest, p.matchAt w = some ((x, z), rest) := by
  obtain ⟨others, hothers⟩ := List.head?_eq_some_iff.1 hhead
  have hmem : (z, rest) ∈ (p.between.successes w').flatMap fun y => p.second.successes y.2 :=
    List.mem_flatMap.2 ⟨(y, z ++ rest), (Regex.mem_successes _ _ _).2 ⟨hy, hw⟩,
      (Regex.mem_successes _ _ _).2 ⟨hz, rfl⟩⟩
  have hblock : p.successes w = (((p.between.successes w').flatMap fun y => p.second.successes y.2).map fun z =>
      ((x, z.1), z.2)) ++ others.flatMap fun x => (p.between.successes x.2).flatMap fun y =>
        (p.second.successes y.2).map fun z => ((x.1, z.1), z.2) := by
    rw [successes, hothers, List.flatMap_cons, List.map_flatMap]
  cases hfirst : (p.between.successes w').flatMap fun y => p.second.successes y.2 with
  | nil =>
    rw [hfirst] at hmem
    cases hmem
  | cons found more =>
    rw [matchAt, hblock, hfirst]
    exact ⟨found.1, found.2, rfl⟩

theorem matchAt_lt (hempty : [] ∉ p.first.lang) (w : List α) (found : List α × List α) (rest : List α)
    (h : p.matchAt w = some (found, rest)) : rest.length < w.length := by
  obtain ⟨x, z⟩ := found
  obtain ⟨y, hx, -, -, rfl⟩ := matchAt_mem h
  have hpos : 0 < x.length := List.length_pos_iff.2 fun hnil => hempty (hnil ▸ hx)
  simp only [List.length_append]
  omega

theorem matchAt_barrier {c : α} (hfirst : p.first.Avoids c) (hbetween : p.between.Avoids c)
    (hsecond : p.second.Avoids c) (A B : List α) :
    p.matchAt (A ++ c :: B) = (p.matchAt A).map fun x => (x.1, x.2 ++ c :: B) := by
  have hsuccesses : p.successes (A ++ c :: B) = (p.successes A).map fun x => (x.1, x.2 ++ c :: B) := by
    rw [successes, successes, Regex.successes_barrier hfirst, List.flatMap_map, List.map_flatMap]
    refine List.flatMap_congr fun x _ => ?_
    rw [Regex.extend_snd, Regex.successes_barrier hbetween, List.flatMap_map, List.map_flatMap]
    refine List.flatMap_congr fun y _ => ?_
    rw [Regex.extend_snd, Regex.successes_barrier hsecond, List.map_map, List.map_map]
    rfl
  rw [matchAt, hsuccesses, List.head?_map, matchAt]

/-- **Nothing is found across a symbol the pattern has nowhere.** -/
theorem findall_barrier (hempty : [] ∉ p.first.lang) {c : α} (hfirst : p.first.Avoids c)
    (hbetween : p.between.Avoids c) (hsecond : p.second.Avoids c) (A B : List α) :
    p.findall (A ++ c :: B) = p.findall A ++ p.findall B :=
  scanAll_barrier (matchAt_lt hempty) (fun A => matchAt_barrier hfirst hbetween hsecond A B) le_rfl

theorem findall_cons_none {c : α} {w : List α} (h : p.matchAt (c :: w) = none) : p.findall (c :: w) = p.findall w := by
  rw [findall, List.length_cons, scanAll, h, findall]

theorem findall_of_match (hempty : [] ∉ p.first.lang) {w rest : List α} {found : List α × List α}
    (h : p.matchAt w = some (found, rest)) : p.findall w = found :: p.findall rest := by
  have hlt := matchAt_lt hempty w found rest h
  cases w with
  | nil => simp at hlt
  | cons c w =>
    rw [findall, List.length_cons, scanAll, h, findall]
    exact congrArg _ (scanAll_fuel (matchAt_lt hempty) (by simpa [Nat.lt_succ_iff] using hlt) le_rfl)

end GroupPattern

end Findall

end Totem.Lib
