import Mathlib

/-!
# Texts and separators

A text is split at the occurrences of a separator, from the left, or into the
words between its separating characters, and its characters outside ASCII can
be left out. Once its blanks are squeezed, the parts between them are its words.
-/
namespace Hispar.Library

def IsAscii (s : String) : Prop := ∀ c ∈ s.toList, c.toNat < 128

instance : DecidablePred IsAscii := fun s =>
  inferInstanceAs (Decidable (∀ c ∈ s.toList, c.toNat < 128))

abbrev AsciiText := {s : String // IsAscii s}

def NoLower (s : String) : Prop := ∀ c ∈ s.toList, c.isLower = false

instance : DecidablePred NoLower := fun s =>
  inferInstanceAs (Decidable (∀ c ∈ s.toList, c.isLower = false))

def asciiIgnore (s : String) : String := String.ofList (s.toList.filter fun c => c.toNat < 128)

def asciiUpper (s : String) : String := String.ofList (s.toList.map Char.toUpper)

def Contains (sep s : String) : Prop := sep.toList <:+: s.toList

instance (sep s : String) : Decidable (Contains sep s) :=
  inferInstanceAs (Decidable (sep.toList <:+: s.toList))

def splitFrom (sep : List Char) : List Char → ℕ → List (List Char)
  | [], _ => [[]]
  | _ :: s, skip + 1 => splitFrom sep s skip
  | c :: s, 0 =>
    if sep <+: c :: s then [] :: splitFrom sep s (sep.length - 1)
    else match splitFrom sep s 0 with
      | [] => [[c]]
      | w :: ws => (c :: w) :: ws

def split (sep s : String) : List String := (splitFrom sep.toList s.toList 0).map String.ofList

variable {s t sep : String} {c : Char}

theorem splitFrom_of_not_infix {sep s : List Char} (h : ¬ sep <:+: s) : splitFrom sep s 0 = [s] := by
  induction s with
  | nil => rfl
  | cons c s ih =>
    have hprefix : ¬ sep <+: c :: s := fun hp => h hp.isInfix
    have hrest : ¬ sep <:+: s := fun hi => h (hi.trans (List.suffix_cons c s).isInfix)
    rw [splitFrom, if_neg hprefix, ih hrest]

theorem splitFrom_skip (sep l s : List Char) :
    splitFrom sep (l ++ s) l.length = splitFrom sep s 0 := by
  induction l with
  | nil => rfl
  | cons c l ih => exact ih

theorem split_of_not_contains (h : ¬ Contains sep s) : split sep s = [s] := by
  rw [split, splitFrom_of_not_infix h, List.map_singleton, String.ofList_toList]

theorem split_append (hsep : sep.toList ≠ []) (h : ¬ Contains sep t) :
    split sep (sep ++ t) = ["", t] := by
  obtain ⟨c, l, hl⟩ := List.exists_cons_of_ne_nil hsep
  have hprefix : sep.toList <+: c :: (l ++ t.toList) := by
    rw [hl]
    exact List.prefix_append (c :: l) t.toList
  rw [split, String.toList_append, hl, List.cons_append, splitFrom, if_pos (hl ▸ hprefix),
    List.length_cons, Nat.add_sub_cancel, splitFrom_skip, ← hl, splitFrom_of_not_infix h]
  simp

theorem not_contains_of_notMem (hc : c ∈ sep.toList) (h : c ∉ s.toList) : ¬ Contains sep s :=
  fun hi => h (hi.subset hc)

theorem contains_append (sep t : String) : Contains sep (sep ++ t) := by
  rw [Contains, String.toList_append]
  exact (List.prefix_append _ _).isInfix

theorem asciiIgnore_of_isAscii (h : IsAscii s) : asciiIgnore s = s := by
  have hall : s.toList.filter (fun c => c.toNat < 128) = s.toList :=
    List.filter_eq_self.mpr fun c hc => decide_eq_true (h c hc)
  rw [asciiIgnore, hall, String.ofList_toList]

theorem isAscii_asciiIgnore (s : String) : IsAscii (asciiIgnore s) := by
  intro c hc
  rw [asciiIgnore, String.toList_ofList] at hc
  exact of_decide_eq_true (List.mem_filter.mp hc).2

theorem asciiIgnore_append (s t : String) : asciiIgnore (s ++ t) = asciiIgnore s ++ asciiIgnore t := by
  refine String.toList_injective ?_
  simp only [asciiIgnore, String.toList_ofList, String.toList_append, List.filter_append]

theorem isAscii_append : IsAscii (s ++ t) ↔ IsAscii s ∧ IsAscii t := by
  simp only [IsAscii, String.toList_append, List.mem_append, or_imp, forall_and]

theorem NoLower.asciiIgnore (h : NoLower s) : NoLower (asciiIgnore s) := by
  intro c hc
  rw [Library.asciiIgnore, String.toList_ofList] at hc
  exact h c (List.mem_filter.mp hc).1

theorem NoLower.notMem (h : NoLower s) (hc : c.isLower = true) : c ∉ s.toList :=
  fun hmem => absurd hc (by rw [h c hmem]; exact Bool.false_ne_true)

theorem isDigit_toString {n : ℕ} (hc : c ∈ (toString n).toList) : c.isDigit = true := by
  rw [Nat.toString_eq_repr, Nat.toList_repr] at hc
  exact Nat.isDigit_of_mem_toDigits (by norm_num) (by norm_num) hc

theorem toNat_le_of_isDigit (h : c.isDigit = true) : c.toNat ≤ 57 := by
  simp only [Char.isDigit, Bool.and_eq_true, decide_eq_true_eq] at h
  exact UInt32.le_iff_toNat_le.mp h.2

theorem le_toNat_of_isLower (h : c.isLower = true) : 97 ≤ c.toNat := by
  simp only [Char.isLower, Bool.and_eq_true, decide_eq_true_eq] at h
  exact UInt32.le_iff_toNat_le.mp h.1

theorem toUpper_of_not_isLower (h : c.isLower = false) : c.toUpper = c := by
  simp only [Char.isLower, Bool.and_eq_false_iff, decide_eq_false_iff_not] at h
  rw [Char.toUpper, dif_neg]
  rintro ⟨hle, hge⟩
  rcases h with h | h
  · exact h hle
  · exact h hge

theorem isLower_toUpper (c : Char) : c.toUpper.isLower = false := by
  refine Bool.eq_false_iff.mpr fun hlower => ?_
  rw [Char.toUpper] at hlower
  split_ifs at hlower with hc
  · have hle := le_toNat_of_isLower hlower
    have hshift : ('A'.val - 'a'.val).toNat = 2 ^ 32 - 32 := by decide
    have hfirst : 97 ≤ c.val.toNat := UInt32.le_iff_toNat_le.mp hc.1
    have hlast : c.val.toNat ≤ 122 := UInt32.le_iff_toNat_le.mp hc.2
    simp only [Char.toNat, UInt32.toNat_add, hshift] at hle
    omega
  · simp only [Char.isLower, Bool.and_eq_true, decide_eq_true_eq] at hlower
    exact hc hlower

theorem asciiUpper_of_noLower (h : NoLower s) : asciiUpper s = s := by
  have hmap : s.toList.map Char.toUpper = s.toList.map id :=
    List.map_congr_left fun c hc => toUpper_of_not_isLower (h c hc)
  rw [asciiUpper, hmap, List.map_id, String.ofList_toList]

theorem noLower_asciiUpper (s : String) : NoLower (asciiUpper s) := by
  intro c hc
  rw [asciiUpper, String.toList_ofList] at hc
  obtain ⟨d, -, rfl⟩ := List.mem_map.mp hc
  exact isLower_toUpper d

theorem noLower_toString (n : ℕ) : NoLower (toString n) := by
  intro c hc
  have hdigit := toNat_le_of_isDigit (isDigit_toString hc)
  refine Bool.eq_false_iff.mpr fun h => ?_
  have hlower := le_toNat_of_isLower h
  omega

theorem isAscii_toString (n : ℕ) : IsAscii (toString n) := by
  intro c hc
  have hdigit := toNat_le_of_isDigit (isDigit_toString hc)
  omega

section words
variable {α : Type*}

theorem filter_intercalate (q : α → Bool) (sep : List α) (ls : List (List α)) :
    (sep.intercalate ls).filter q = (sep.filter q).intercalate (ls.map (List.filter q)) := by
  induction ls with
  | nil => rfl
  | cons l ls ih =>
    cases ls with
    | nil => simp
    | cons l' ls =>
      rw [List.intercalate_cons_cons, List.filter_append, List.filter_append, ih]
      simp

variable {p : α → Bool} {a : α}

/-- What stands between the separating elements of a list, where it is not empty. -/
def words (p : α → Bool) (l : List α) : List (List α) := (l.splitOnP p).filter (· ≠ [])

theorem words_nil : words p [] = [] := by simp [words]

theorem words_append_cons (ha : p a = true) (l l' : List α) :
    words p (l ++ a :: l') = words p l ++ words p l' := by
  rw [words, List.splitOnP_append_cons l l' ha, List.filter_append]
  rfl

theorem words_of_forall {l : List α} (hl : l ≠ []) (h : ∀ b ∈ l, p b = false) : words p l = [l] := by
  rw [words, List.splitOnP_eq_singleton h]
  simp [hl]

theorem words_intercalate (ha : p a = true) (ls : List (List α)) :
    words p ([a].intercalate ls) = ls.flatMap (words p) := by
  induction ls with
  | nil => exact words_nil
  | cons l ls ih =>
    cases ls with
    | nil => simp
    | cons l' ls =>
      rw [List.intercalate_cons_cons, List.append_assoc, List.singleton_append,
        words_append_cons ha, ih]
      rfl

theorem mem_intercalate {sep : List α} {ls : List (List α)} (h : a ∈ sep.intercalate ls) :
    a ∈ sep ∨ ∃ l ∈ ls, a ∈ l := by
  induction ls with
  | nil => exact absurd h (by simp)
  | cons l ls ih =>
    cases ls with
    | nil => exact Or.inr ⟨l, List.mem_cons_self, by simpa using h⟩
    | cons l' ls =>
      rw [List.intercalate_cons_cons, List.mem_append, List.mem_append, or_assoc] at h
      rcases h with h | h | h
      · exact Or.inr ⟨l, List.mem_cons_self, h⟩
      · exact Or.inl h
      · refine (ih h).imp_right fun hmem => ?_
        obtain ⟨m, hm, ham⟩ := hmem
        exact ⟨m, List.mem_cons_of_mem l hm, ham⟩

theorem words_congr {q : α → Bool} {l : List α} (h : ∀ b ∈ l, p b = q b) : words p l = words q l := by
  have hfields : l.splitOnP p = l.splitOnP q := by
    induction l with
    | nil => rfl
    | cons b l ih =>
      rw [List.splitOnP_cons_eq_if_modifyHead, List.splitOnP_cons_eq_if_modifyHead,
        h b List.mem_cons_self, ih fun c hc => h c (List.mem_cons_of_mem b hc)]
  rw [words, hfields, words]

end words

section blanks

def isAsciiSpace (c : Char) : Bool := c.toNat ∈ [9, 10, 11, 12, 13, 32]

def strip (s : String) : String :=
  String.ofList (((s.toList.dropWhile isAsciiSpace).reverse.dropWhile isAsciiSpace).reverse)

def replaceChar (c : Char) (new : List Char) (s : List Char) : List Char :=
  s.flatMap fun d => if d = c then new else [d]

def squeeze : List Char → List Char
  | [] => []
  | [c] => [c]
  | c :: d :: s => if c = ' ' ∧ d = ' ' then ' ' :: squeeze s else c :: squeeze (d :: s)

def squeezeAll : ℕ → List Char → List Char
  | 0, s => s
  | n + 1, s => if squeeze s = s then s else squeezeAll n (squeeze s)

variable {l : List Char} {c : Char}

theorem strip_of_ends {s : String} (hhead : ∀ c ∈ s.toList.head?, isAsciiSpace c = false)
    (hlast : ∀ c ∈ s.toList.getLast?, isAsciiSpace c = false) : strip s = s := by
  have hkeep : ∀ l : List Char, (∀ c ∈ l.head?, isAsciiSpace c = false) →
      l.dropWhile isAsciiSpace = l := by
    intro l h
    cases l with
    | nil => rfl
    | cons c l => rw [List.dropWhile_cons_of_neg (by simp [h c rfl])]
  rw [strip, hkeep _ hhead, hkeep s.toList.reverse (by rwa [List.head?_reverse]),
    List.reverse_reverse, String.ofList_toList]

theorem replaceChar_append (new l m : List Char) :
    replaceChar c new (l ++ m) = replaceChar c new l ++ replaceChar c new m := List.flatMap_append

theorem replaceChar_of_notMem {new : List Char} (h : c ∉ l) : replaceChar c new l = l := by
  have hall : ∀ d ∈ l, (if d = c then new else [d]) = [d] := fun d hd =>
    if_neg fun he : d = c => h (he ▸ hd)
  rw [replaceChar, List.flatMap_congr hall, List.flatMap_singleton']

theorem squeeze_length (l : List Char) : squeeze l = l ∨ (squeeze l).length < l.length := by
  induction l using squeeze.induct with
  | case1 => exact Or.inl rfl
  | case2 c => exact Or.inl rfl
  | case3 c d s h ih =>
    refine Or.inr ?_
    rw [squeeze, if_pos h]
    rcases ih with ih | ih
    · simp [ih]
    · simp only [List.length_cons]
      omega
  | case4 c d s h ih =>
    rw [squeeze, if_neg h]
    rcases ih with ih | ih
    · exact Or.inl (by rw [ih])
    · exact Or.inr (by simpa using ih)

theorem words_cons {α : Type*} {p : α → Bool} {a : α} (ha : p a = true) (l : List α) :
    words p (a :: l) = words p l := words_append_cons ha [] l

theorem words_cons_congr {α : Type*} {p : α → Bool} {l m : List α} (a : α)
    (hhead : l.head? = m.head?) (h : words p l = words p m) : words p (a :: l) = words p (a :: m) := by
  have hword : ∀ l : List α, p a = false → words p (a :: l) =
      if (l.head?.map p).getD true then [a] :: words p l else (words p l).modifyHead (a :: ·) := by
    intro l ha
    cases l with
    | nil => simp [words, List.splitOnP_cons_eq_if_modifyHead, ha]
    | cons b l =>
      cases hb : p b with
      | true => simp [words, List.splitOnP_cons_eq_if_modifyHead, ha, hb]
      | false =>
        obtain ⟨w, ws, hw⟩ := List.exists_cons_of_ne_nil (List.splitOnP_ne_nil p l)
        simp [words, List.splitOnP_cons_eq_if_modifyHead, ha, hb, hw]
  cases ha : p a with
  | true => rw [words_cons ha, words_cons ha, h]
  | false => rw [hword l ha, hword m ha, hhead, h]

theorem squeeze_ends (l : List Char) : (squeeze l).head? = l.head? ∧
    (squeeze l).getLast? = l.getLast? ∧ words (· = ' ') (squeeze l) = words (· = ' ') l := by
  induction l using squeeze.induct with
  | case1 => exact ⟨rfl, rfl, rfl⟩
  | case2 c => exact ⟨rfl, rfl, rfl⟩
  | case3 c d s h ih =>
    obtain ⟨rfl, rfl⟩ := h
    obtain ⟨-, hlast, hwords⟩ := ih
    rw [squeeze, if_pos ⟨rfl, rfl⟩]
    refine ⟨rfl, by simp [List.getLast?_cons, hlast], ?_⟩
    rw [words_cons (by decide), words_cons (by decide), words_cons (by decide), hwords]
  | case4 c d s h ih =>
    obtain ⟨hhead, hlast, hwords⟩ := ih
    rw [squeeze, if_neg h]
    exact ⟨rfl, by rw [List.getLast?_cons, hlast, ← List.getLast?_cons],
      words_cons_congr c hhead hwords⟩

theorem squeezeAll_spec {n : ℕ} (h : l.length ≤ n) : squeeze (squeezeAll n l) = squeezeAll n l ∧
    (squeezeAll n l).head? = l.head? ∧ (squeezeAll n l).getLast? = l.getLast? ∧
    words (· = ' ') (squeezeAll n l) = words (· = ' ') l := by
  induction n generalizing l with
  | zero =>
    obtain rfl := List.length_eq_zero_iff.mp (Nat.le_zero.mp h)
    exact ⟨rfl, rfl, rfl, rfl⟩
  | succ n ih =>
    rw [squeezeAll]
    split_ifs with hs
    · exact ⟨hs, rfl, rfl, rfl⟩
    · have hlt := (squeeze_length l).resolve_left hs
      obtain ⟨hhead, hlast, hwords⟩ := squeeze_ends l
      obtain ⟨hfix, hhead', hlast', hwords'⟩ := ih (l := squeeze l) (by omega)
      exact ⟨hfix, hhead'.trans hhead, hlast'.trans hlast, hwords'.trans hwords⟩

theorem splitFrom_singleton (a : Char) (l : List Char) : splitFrom [a] l 0 = l.splitOnP (· = a) := by
  induction l with
  | nil => rfl
  | cons c l ih =>
    rw [splitFrom, List.splitOnP_cons_eq_if_modifyHead, ih]
    by_cases hc : c = a
    · simp [hc, ih]
    · obtain ⟨w, ws, hw⟩ := List.exists_cons_of_ne_nil (List.splitOnP_ne_nil (fun d => d = a) l)
      simp [hc, Ne.symm hc, hw]

theorem splitFrom_of_squeezed (hne : l ≠ []) (hs : squeeze l = l) (hhead : l.head? ≠ some ' ')
    (hlast : l.getLast? ≠ some ' ') : splitFrom [' '] l 0 = words (· = ' ') l := by
  have hfields : ∀ l : List Char, l ≠ [] → squeeze l = l → l.getLast? ≠ some ' ' →
      (∀ w ∈ (l.splitOnP (· = ' ')).tail, w ≠ []) ∧
        (l.head? ≠ some ' ' → ∀ w ∈ l.splitOnP (· = ' '), w ≠ []) := by
    intro l
    induction l with
    | nil => exact fun h => absurd rfl h
    | cons c l ih =>
      intro _ hs hlast
      rw [List.splitOnP_cons_eq_if_modifyHead]
      cases l with
      | nil =>
        have hc : c ≠ ' ' := fun hc => hlast (by rw [hc]; rfl)
        simp [hc]
      | cons d l =>
        have hone : ¬ (c = ' ' ∧ d = ' ') := by
          intro h
          rw [squeeze, if_pos h] at hs
          have hlen := congrArg List.length hs
          rcases squeeze_length l with hl | hl
          · simp [hl] at hlen
          · simp only [List.length_cons] at hlen
            omega
        rw [squeeze, if_neg hone] at hs
        obtain ⟨htail, hall⟩ := ih (List.cons_ne_nil d l) (List.cons.inj hs).2
          (by rwa [List.getLast?_cons_cons] at hlast)
        by_cases hc : c = ' '
        · have hd : (d :: l).head? ≠ some ' ' := fun hd => hone ⟨hc, Option.some.inj hd⟩
          simp only [hc, decide_true, if_true, List.tail_cons]
          exact ⟨hall hd, fun h => absurd rfl h⟩
        · obtain ⟨w, ws, hw⟩ := List.exists_cons_of_ne_nil
            (List.splitOnP_ne_nil (fun e => e = ' ') (d :: l))
          rw [hw] at htail ⊢
          simp only [hc, decide_false, Bool.false_eq_true, if_false, List.modifyHead_cons,
            List.tail_cons, List.mem_cons] at htail ⊢
          refine ⟨htail, fun _ v hv => ?_⟩
          rcases hv with rfl | hv
          · exact List.cons_ne_nil _ _
          · exact htail v hv
  rw [splitFrom_singleton, words]
  exact (List.filter_eq_self.mpr fun w hw => by
    simpa using (hfields l hne hs hlast).2 hhead w hw).symm

end blanks
end Hispar.Library
