import Xv6.Xargs.Machine

namespace Xv6.Xargs

open Lib.Command
open Grep (Str newline Holds holds_append terminated unterminated)

section Strings

def cut (field : Str) : Str := field.takeWhile (· ≠ 0)

variable {args : List Str} {buf buf' : Nat → UInt8} {argsbuf argsbuf' : Nat → Pointer}
  {lim lim' i k n : Nat} {f : Str} {fs gs : List Str}

theorem cstring_eq (h : Holds buf k (f ++ [0])) (hn : f.length < n) :
    cstring buf n k = some (cut f) := by
  induction f generalizing k n with
  | nil =>
    obtain ⟨n, rfl⟩ := Nat.exists_eq_add_of_lt hn
    rw [cstring, if_pos h.1]
    rfl
  | cons c f ih =>
    obtain ⟨m, rfl⟩ : ∃ m, n = m + 1 := ⟨n - 1, by simp only [List.length_cons] at hn; omega⟩
    obtain ⟨hc, hf⟩ := h
    rw [cstring, hc, cut]
    by_cases hzero : c = 0
    · rw [if_pos hzero, List.takeWhile_cons_of_neg (by simpa using hzero)]
    · rw [if_neg hzero, ih hf (by simp only [List.length_cons] at hn; omega),
        List.takeWhile_cons_of_pos (by simpa using hzero)]
      rfl

def Stored (buf : Nat → UInt8) (argsbuf : Nat → Pointer) (lim : Nat) : Nat → List Str → Prop
  | _, [] => True
  | i, f :: fs =>
    (∃ k, argsbuf i = .buf k ∧ Holds buf k (f ++ [0]) ∧ k + f.length < lim) ∧
      Stored buf argsbuf lim (i + 1) fs

theorem stored_append :
    Stored buf argsbuf lim i (fs ++ gs) ↔
      Stored buf argsbuf lim i fs ∧ Stored buf argsbuf lim (i + fs.length) gs := by
  induction fs generalizing i with
  | nil => simp [Stored]
  | cons f fs ih =>
    rw [List.cons_append, Stored, Stored, ih, and_assoc, List.length_cons, Nat.add_right_comm]
    rfl

theorem Stored.congr (h : Stored buf argsbuf lim i fs) (hlim : lim ≤ lim')
    (hbuf : ∀ k < lim, buf' k = buf k) (hargs : ∀ j < i + fs.length, argsbuf' j = argsbuf j) :
    Stored buf' argsbuf' lim' i fs := by
  induction fs generalizing i with
  | nil => trivial
  | cons f fs ih =>
    obtain ⟨⟨k, hk, hstr, hlt⟩, hfs⟩ := h
    simp only [List.length_cons] at hargs
    refine ⟨⟨k, ?_, ?_, by omega⟩, ih hfs fun j hj => hargs j (by omega)⟩
    · rw [hargs i (by omega), hk]
    · apply hstr.congr
      intro j _ hj
      simp only [List.length_append, List.length_singleton] at hj
      exact hbuf j (by omega)

theorem vectorFrom_stored (h : Stored buf argsbuf lim i fs) (hlim : lim ≤ bufSize)
    (hnull : argsbuf (i + fs.length) = .null) (hn : fs.length < n) :
    vectorFrom args buf argsbuf n i = some (fs.map cut) := by
  induction fs generalizing i n with
  | nil =>
    obtain ⟨n, rfl⟩ := Nat.exists_eq_add_of_lt hn
    rw [vectorFrom, if_pos (show argsbuf i = .null from hnull)]
    rfl
  | cons f fs ih =>
    obtain ⟨⟨k, hk, hstr, hlt⟩, hfs⟩ := h
    rw [List.length_cons] at hn hnull
    obtain ⟨m, rfl⟩ : ∃ m, n = m + 1 := ⟨n - 1, by omega⟩
    have hf : string args buf (argsbuf i) = some (cut f) := by
      rw [hk]
      exact cstring_eq hstr (by omega)
    have hnull' : argsbuf (i + 1 + fs.length) = .null := by
      rw [← hnull]
      congr 1
      omega
    rw [vectorFrom, if_neg (by rw [hk]; exact nofun), hf, ih hfs hnull' (by omega)]
    rfl

theorem vectorFrom_args {xs : List Str} (h : ∀ i < args.length, argsbuf i = .arg i)
    (hxs : vectorFrom args buf argsbuf n args.length = some xs) (hk : k ≤ args.length) :
    vectorFrom args buf argsbuf (n + k) (args.length - k) = some (args.drop (args.length - k) ++ xs) := by
  induction k with
  | zero => simpa using hxs
  | succ k ih =>
    have hlt : args.length - (k + 1) < args.length := by omega
    have hnext : args.length - (k + 1) + 1 = args.length - k := by omega
    have hslot := h _ hlt
    rw [← Nat.add_assoc, vectorFrom, if_neg (by rw [hslot]; exact nofun), hslot, string,
      List.getElem?_eq_getElem hlt, hnext, ih (by omega), List.drop_eq_getElem_cons hlt, hnext]
    rfl

end Strings

section Fields

variable {a c : UInt8} {l line : Str} {fields : List Str} {cur : Str}

theorem length_splitOn (a : UInt8) (l : Str) : (l.splitOn a).length = l.count a + 1 := by
  induction l with
  | nil => rfl
  | cons c l ih =>
    rw [List.splitOn_cons_eq_if_modifyHead]
    by_cases h : c = a
    · rw [if_pos (by simpa using h), List.length_cons, h, List.count_cons_self, ih]
    · rw [if_neg (by simpa using h), List.length_modifyHead, List.count_cons_of_ne h, ih]

theorem splitOn_append_other (h : l.splitOn a = fields ++ [cur]) (hc : c ≠ a) :
    (l ++ [c]).splitOn a = fields ++ [cur ++ [c]] := by
  induction l generalizing fields cur with
  | nil =>
    obtain ⟨rfl, hcur⟩ := List.append_inj' (show [] ++ [[]] = fields ++ [cur] from h) rfl
    obtain rfl : [] = cur := by simpa using hcur
    exact List.splitOn_eq_singleton (by simpa using hc.symm)
  | cons d l ih =>
    -- the fields of the rest, the last one apart
    obtain ⟨init, last, hl⟩ : ∃ init last, l.splitOn a = init ++ [last] :=
      ⟨_, _, (List.dropLast_concat_getLast (List.splitOn_ne_nil a l)).symm⟩
    rw [List.splitOn_cons_eq_if_modifyHead, hl] at h
    rw [List.cons_append, List.splitOn_cons_eq_if_modifyHead, ih hl]
    by_cases hd : (d == a) = true
    · rw [if_pos hd] at h ⊢
      obtain ⟨rfl, hlast⟩ := List.append_inj' (show [] :: init ++ [last] = fields ++ [cur] from h) rfl
      obtain rfl : last = cur := by simpa using hlast
      rfl
    · rw [if_neg hd] at h ⊢
      cases init with
      | nil =>
        obtain ⟨rfl, hlast⟩ := List.append_inj' (show [] ++ [d :: last] = fields ++ [cur] from h) rfl
        obtain rfl : d :: last = cur := by simpa using hlast
        rfl
      | cons x init =>
        obtain ⟨rfl, hlast⟩ :=
          List.append_inj' (show (d :: x) :: init ++ [last] = fields ++ [cur] from h) rfl
        obtain rfl : last = cur := by simpa using hlast
        rfl

theorem exists_line (rest : Str) (h : newline ∉ line) :
    ∃ tail, line ++ tail ∈ terminated (line ++ rest) ∨ line ++ tail = unterminated (line ++ rest) := by
  by_cases hr : newline ∈ rest
  · obtain ⟨u, v, rfl, hu⟩ := List.eq_append_cons_of_mem hr
    refine ⟨u, .inl ?_⟩
    rw [← List.append_assoc, Grep.terminated_append (by simp [h, hu])]
    exact List.mem_cons_self
  · exact ⟨rest, .inr (Grep.unterminated_of_notMem (by simp [h, hr])).symm⟩

end Fields

end Xv6.Xargs
