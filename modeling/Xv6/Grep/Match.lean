import Mathlib.Computability.Language

namespace Xv6.Grep

open Computability

abbrev Str := List UInt8

def caret : UInt8 := '^'.toUInt8

def dot : UInt8 := '.'.toUInt8

def star : UInt8 := '*'.toUInt8

def dollar : UInt8 := '$'.toUInt8

def accepts (c t : UInt8) : Bool := c == dot || t == c

def starLoop (rest : Str → Bool) (c : UInt8) : Str → Bool
  | [] => rest []
  | t :: text => rest (t :: text) || (accepts c t && starLoop rest c text)

def charStep (rest : Str → Bool) (c : UInt8) : Str → Bool
  | [] => false
  | t :: text => accepts c t && rest text

/-- Whether `re` matches at the beginning of the text. -/
def matchhere : Str → Str → Bool
  | [], _ => true
  | [c], text => if c = dollar then text.isEmpty else charStep (matchhere []) c text
  | c :: d :: re, text =>
    if d = star then starLoop (matchhere re) c text else charStep (matchhere (d :: re)) c text

/-- Whether `c*` followed by `re` matches at the beginning of the text. -/
def matchstar (c : UInt8) (re text : Str) : Bool := starLoop (matchhere re) c text

def searchLoop (re : Str) : Str → Bool
  | [] => matchhere re []
  | t :: text => matchhere re (t :: text) || searchLoop re text

/-- `match(re, text)`. -/
def matchRe (re text : Str) : Bool :=
  match re with
  | [] => searchLoop [] text
  | c :: rest => if c = caret then matchhere rest text else searchLoop (c :: rest) text

theorem matchhere_star (c : UInt8) (re text : Str) :
    matchhere (c :: star :: re) text = matchstar c re text := by
  rw [matchhere, if_pos rfl, matchstar]

inductive Item where
  | char (c : UInt8)
  | star (c : UInt8)
  deriving DecidableEq

structure Pattern where
  items : List Item
  toEnd : Bool
  deriving DecidableEq

/-- The words of one character that `c` accepts. -/
def one (c : UInt8) : Language UInt8 := {w | ∃ t, accepts c t ∧ w = [t]}

def Item.language : Item → Language UInt8
  | .char c => one c
  | .star c => (one c)∗

def Pattern.language (p : Pattern) : Language UInt8 := (p.items.map Item.language).prod

def Pattern.cons (i : Item) (p : Pattern) : Pattern := { p with items := i :: p.items }

def parse : Str → Pattern
  | [] => ⟨[], false⟩
  | [c] => if c = dollar then ⟨[], true⟩ else ⟨[.char c], false⟩
  | c :: d :: re =>
    if d = star then (parse re).cons (.star c) else (parse (d :: re)).cons (.char c)

def Pattern.Begins (p : Pattern) (text : Str) : Prop :=
  ∃ word ∈ p.language, ∃ rest, text = word ++ rest ∧ (p.toEnd → rest = [])

theorem Pattern.begins_cons (i : Item) (p : Pattern) (text : Str) :
    (p.cons i).Begins text ↔ ∃ u ∈ i.language, ∃ v, text = u ++ v ∧ p.Begins v := by
  constructor
  · rintro ⟨word, hword, rest, rfl, hend⟩
    obtain ⟨u, hu, w, hw, rfl⟩ := Language.mem_mul.mp hword
    exact ⟨u, hu, w ++ rest, List.append_assoc u w rest, w, hw, rest, rfl, hend⟩
  · rintro ⟨u, hu, _, rfl, w, hw, rest, rfl, hend⟩
    exact ⟨u ++ w, Language.append_mem_mul hu hw, rest, (List.append_assoc u w rest).symm, hend⟩

theorem mem_one_kstar (c : UInt8) (w : Str) : w ∈ (one c)∗ ↔ ∀ t ∈ w, accepts c t := by
  constructor
  · intro h t ht
    obtain ⟨parts, rfl, hparts⟩ := Language.mem_kstar.mp h
    obtain ⟨part, hpart, ht⟩ := List.mem_flatten.mp ht
    obtain ⟨t', hok, rfl⟩ := hparts part hpart
    rwa [List.mem_singleton.mp ht]
  · intro h
    refine Language.mem_kstar.mpr ⟨w.map fun t => [t], (List.flatMap_singleton' w).symm, ?_⟩
    intro part hpart
    obtain ⟨t, ht, rfl⟩ := List.mem_map.mp hpart
    exact ⟨t, h t ht, rfl⟩

theorem starLoop_iff (rest : Str → Bool) (c : UInt8) (text : Str) :
    starLoop rest c text ↔ ∃ u ∈ (one c)∗, ∃ v, text = u ++ v ∧ rest v := by
  simp only [mem_one_kstar]
  induction text with
  | nil =>
    constructor
    · intro h
      exact ⟨[], by simp, [], rfl, h⟩
    · rintro ⟨u, -, v, he, hv⟩
      obtain ⟨rfl, rfl⟩ := List.append_eq_nil_iff.mp he.symm
      exact hv
  | cons t text ih =>
    rw [starLoop, Bool.or_eq_true, Bool.and_eq_true, ih]
    constructor
    · rintro (h | ⟨ht, u, hu, v, rfl, hv⟩)
      · exact ⟨[], by simp, t :: text, rfl, h⟩
      · exact ⟨t :: u, by simpa using ⟨ht, hu⟩, v, rfl, hv⟩
    · rintro ⟨u, hu, v, he, hv⟩
      cases u with
      | nil =>
        obtain rfl : t :: text = v := he
        exact .inl hv
      | cons t' u =>
        obtain ⟨rfl, rfl⟩ := List.cons.inj he
        obtain ⟨ht, hu⟩ := List.forall_mem_cons.mp hu
        exact .inr ⟨ht, u, hu, v, rfl, hv⟩

theorem charStep_iff (rest : Str → Bool) (c : UInt8) (text : Str) :
    charStep rest c text ↔ ∃ u ∈ one c, ∃ v, text = u ++ v ∧ rest v := by
  constructor
  · intro h
    cases text with
    | nil => cases h
    | cons t text =>
      obtain ⟨ht, hrest⟩ := (Bool.and_eq_true _ _).mp h
      exact ⟨[t], ⟨t, ht, rfl⟩, text, rfl, hrest⟩
  · rintro ⟨_, ⟨t, ht, rfl⟩, v, rfl, hv⟩
    exact (Bool.and_eq_true _ _).mpr ⟨ht, hv⟩

theorem begins_empty (text : Str) : (Pattern.mk [] false).Begins text :=
  ⟨[], Language.nil_mem_one, text, rfl, nofun⟩

theorem begins_end (text : Str) : (Pattern.mk [] true).Begins text ↔ text = [] := by
  constructor
  · rintro ⟨_, rfl, rest, rfl, hend⟩
    exact hend rfl
  · rintro rfl
    exact ⟨[], Language.nil_mem_one, [], rfl, fun _ => rfl⟩

theorem matchhere_iff (re text : Str) : matchhere re text ↔ (parse re).Begins text := by
  induction re using parse.induct generalizing text with
  | case1 => simpa [matchhere, parse] using begins_empty text
  | case2 => rw [matchhere, if_pos rfl, parse, if_pos rfl, begins_end, List.isEmpty_iff]
  | case3 c hc =>
    have hrest : ∀ v, matchhere [] v ↔ (Pattern.mk [] false).Begins v := fun v =>
      iff_of_true rfl (begins_empty v)
    rw [matchhere, if_neg hc, parse, if_neg hc, charStep_iff]
    simp only [hrest]
    exact (Pattern.begins_cons (.char c) ⟨[], false⟩ text).symm
  | case4 c re ih =>
    rw [matchhere_star, matchstar, parse, if_pos rfl, starLoop_iff, Pattern.begins_cons]
    simp only [ih]
    rfl
  | case5 c d re hd ih =>
    rw [matchhere, if_neg hd, parse, if_neg hd, charStep_iff, Pattern.begins_cons]
    simp only [ih]
    rfl

theorem searchLoop_iff (re text : Str) :
    searchLoop re text ↔ ∃ u v, text = u ++ v ∧ matchhere re v := by
  induction text with
  | nil => simp [searchLoop]
  | cons t text ih =>
    rw [searchLoop, Bool.or_eq_true, ih]
    constructor
    · rintro (h | ⟨u, v, rfl, hv⟩)
      · exact ⟨[], t :: text, rfl, h⟩
      · exact ⟨t :: u, v, rfl, hv⟩
    · rintro ⟨u, v, he, hv⟩
      cases u with
      | nil =>
        obtain rfl : t :: text = v := he
        exact .inl hv
      | cons t' u =>
        obtain ⟨rfl, rfl⟩ := List.cons.inj he
        exact .inr ⟨u, v, rfl, hv⟩

/-- The pattern has a word in the text: at its beginning if the pattern starts with `^`. -/
def Occurs (re text : Str) : Prop :=
  if re.head? = some caret then (parse re.tail).Begins text
  else ∃ u v, text = u ++ v ∧ (parse re).Begins v

/-- `match` decides the pattern language. -/
theorem matchRe_iff_occurs (re text : Str) : matchRe re text = true ↔ Occurs re text := by
  cases re with
  | nil =>
    rw [matchRe, searchLoop_iff, Occurs, if_neg (by simp)]
    simp only [matchhere_iff]
  | cons c re =>
    rw [matchRe, Occurs]
    split
    next hc => rw [if_pos (by simp [hc]), matchhere_iff]; rfl
    next hc =>
      rw [if_neg (by simpa using hc), searchLoop_iff]
      simp only [matchhere_iff]

example : matchRe ("a.*$".toUTF8.toList) ("bacc".toUTF8.toList) = true := by decide +kernel

end Xv6.Grep
