import Hispar.Exabgp.ApiRoutes

/-!
# The commands read back

The texts of announcements and withdrawals have one reading: the prefix, the next hop
and the path they were made of. A number with a suffix is none, and a command with such
a number in its path is refused as a whole.
-/
namespace Hispar.Exabgp
open Library Bgp

theorem toNat_of_isDigit {c : Char} (h : c.isDigit = true) : 48 ≤ c.toNat ∧ c.toNat ≤ 57 := by
  refine ⟨?_, toNat_le_of_isDigit h⟩
  simp only [Char.isDigit, Bool.and_eq_true, decide_eq_true_eq] at h
  exact UInt32.le_iff_toNat_le.mp h.1

theorem isTokenChar_of_toNat {c : Char} (hge : 42 ≤ c.toNat) (hle : c.toNat ≤ 90) :
    IsTokenChar c := by
  constructor
  · simp only [isAsciiSpace, List.mem_cons, List.not_mem_nil, or_false, decide_eq_false_iff_not]
    omega
  · intro hmem
    have hcode : c.toNat ∈ [91, 93, 40, 41] := List.mem_map_of_mem (f := Char.toNat) hmem
    simp only [List.mem_cons, List.not_mem_nil, or_false] at hcode
    omega

theorem digitValue_of_isDigit {c : Char} (h : c.isDigit = true) : digitValue c = c.toNat - 48 := by
  simp only [Char.isDigit, Bool.and_eq_true, decide_eq_true_eq] at h
  rw [digitValue, if_pos ⟨h.1, h.2⟩]

theorem ne_nil_toString (n : ℕ) : (toString n).toList ≠ [] := by
  rw [Nat.toString_eq_repr, Nat.toList_repr]
  exact Nat.toDigits_ne_nil

theorem digits_toString (n : ℕ) : digits 10 (toString n).toList = some n := by
  have hvalue : ∀ c ∈ (toString n).toList, digitValue c = c.toNat - '0'.toNat := fun c hc =>
    digitValue_of_isDigit (isDigit_toString hc)
  have hall : (toString n).toList.all (digitValue · < 10) = true := by
    simp only [List.all_eq_true, decide_eq_true_eq]
    intro c hc
    have hdigit := toNat_of_isDigit (isDigit_toString hc)
    rw [digitValue_of_isDigit (isDigit_toString hc)]
    omega
  have hfold : ∀ (l : List Char) (m : ℕ), (∀ c ∈ l, digitValue c = c.toNat - '0'.toNat) →
      l.foldl (fun n c => 10 * n + digitValue c) m = Nat.ofDigitChars 10 l m := by
    intro l
    induction l with
    | nil => exact fun m _ => Nat.ofDigitChars_nil.symm
    | cons c l ih =>
      intro m h
      rw [List.foldl_cons, Nat.ofDigitChars_cons, ih _ fun c hc => h c (List.mem_cons_of_mem _ hc),
        h c List.mem_cons_self]
  have hnum : Nat.ofDigitChars 10 (toString n).toList 0 = n := by
    rw [Nat.toString_eq_repr, Nat.toList_repr]
    exact Nat.ofDigitChars_ten_toDigits
  rw [digits, hall, Bool.and_true, hfold _ 0 hvalue, hnum]
  simp

theorem digits_suffix (n : ℕ) : digits 10 ((toString n).toList ++ ['L']) = none := by
  have hall : ((toString n).toList ++ ['L']).all (digitValue · < 10) = false := by
    rw [List.all_append]
    exact Bool.and_eq_false_iff.mpr (Or.inr (by decide))
  rw [digits, hall, Bool.and_false]
  rfl

theorem pyInt_of_digits {w : String} (h : ∀ c ∈ w.toList, IsTokenChar c)
    (hhead : ∀ c ∈ w.toList.head?, c.isDigit = true) :
    pyInt w = (digits 10 w.toList).map fun n => (n : ℤ) := by
  have hstrip : strip w = w :=
    strip_of_ends (fun c hc => (h c (List.mem_of_head? hc)).1)
      fun c hc => (h c (List.mem_of_getLast? hc)).1
  rw [pyInt, hstrip]
  split
  · rename_i text htext
    rw [htext] at hhead
    exact absurd (hhead '-' rfl) (by decide)
  · rename_i text htext
    rw [htext] at hhead
    exact absurd (hhead '+' rfl) (by decide)
  · rfl

theorem isTokenChar_of_isDigit {c : Char} (h : c.isDigit = true) : IsTokenChar c := by
  have hcode := toNat_of_isDigit h
  exact isTokenChar_of_toNat (by omega) (by omega)

theorem pyInt_toString (n : ℕ) : pyInt (toString n) = some (n : ℤ) := by
  rw [pyInt_of_digits (fun c hc => isTokenChar_of_isDigit (isDigit_toString hc))
    fun c hc => isDigit_toString (List.mem_of_head? hc), digits_toString]
  rfl

theorem pyInt_suffix (n : ℕ) : pyInt (toString n ++ "L") = none := by
  have htext : (toString n ++ "L").toList = (toString n).toList ++ ['L'] := String.toList_append ..
  rw [pyInt_of_digits, htext, digits_suffix]
  · rfl
  · intro c hc
    rw [htext] at hc
    rcases List.mem_append.mp hc with hc | hc
    · exact isTokenChar_of_isDigit (isDigit_toString hc)
    · obtain rfl := List.mem_singleton.mp hc
      exact isTokenChar_of_toNat (by decide) (by decide)
  · intro c hc
    rw [htext, List.head?_append_of_ne_nil _ (ne_nil_toString n)] at hc
    exact isDigit_toString (List.mem_of_head? hc)

theorem newASN_of_notMem {w : String} (h : '.' ∉ w.toList) : newASN w = pyInt w := if_neg h

theorem newASN_toString (n : ℕ) : newASN (toString n) = some (n : ℤ) := by
  rw [newASN_of_notMem fun h => absurd (isDigit_toString h) (by decide), pyInt_toString]

theorem newASN_suffix (n : ℕ) : newASN (toString n ++ "L") = none := by
  refine (newASN_of_notMem fun h => ?_).trans (pyInt_suffix n)
  rw [String.toList_append, List.mem_append] at h
  rcases h with h | h
  · exact absurd (isDigit_toString h) (by decide)
  · exact absurd h (by decide)

theorem octets_lt {n k : ℕ} (hk : k ∈ octets n) : k < 256 := by
  simp only [octets, List.mem_cons, List.not_mem_nil, or_false] at hk
  omega

theorem decimalOctet_toString {k : ℕ} (hk : k < 256) :
    decimalOctet (toString k).toList = some k := by
  have hall : ∀ k < 256, decimalOctet (Nat.toDigits 10 k) = some k := by decide +kernel
  simpa only [Nat.toString_eq_repr, Nat.toList_repr] using hall k hk

theorem splitOn_longToIp (n : ℕ) :
    (longToIp n).toList.splitOn '.' = (octets n).map fun k => (toString k).toList := by
  rw [longToIp, String.toList_ofList]
  apply List.splitOn_intercalate
  · intro l hl
    obtain ⟨k, -, rfl⟩ := List.mem_map.mp hl
    exact fun h => absurd (isDigit_toString h) (by decide)
  · simp [octets]

theorem mem_longToIp {n : ℕ} {c : Char} (hc : c ∈ (longToIp n).toList) :
    c = '.' ∨ c.isDigit = true := by
  simp only [longToIp, octets, String.toList_ofList, List.map_cons, List.map_nil,
    List.intercalate_cons_cons, List.intercalate_singleton, List.mem_append, List.mem_singleton, or_assoc] at hc
  rcases hc with hc | hc | hc | hc | hc | hc | hc
  all_goals first | exact Or.inl hc | exact Or.inr (isDigit_toString hc)

theorem isToken_longToIp (n : ℕ) : IsToken (longToIp n).toList := by
  constructor
  · simp [longToIp, octets]
  · intro c hc
    rcases mem_longToIp hc with rfl | hc
    · exact isTokenChar_of_toNat (by decide) (by decide)
    · exact isTokenChar_of_isDigit hc

theorem notMem_longToIp {c : Char} (n : ℕ) (hc : c ≠ '.') (hdigit : c.isDigit = false) :
    c ∉ (longToIp n).toList := by
  intro h
  rcases mem_longToIp h with h | h
  · exact hc h
  · rw [hdigit] at h
    exact Bool.false_ne_true h

theorem pton_longToIp (pton6 : String → Option Packed) (n : ℕ) :
    pton pton6 (longToIp n) = some (octets n) := by
  have hmap : ((octets n).map fun k => (toString k).toList).mapM decimalOctet = some (octets n) := by
    rw [List.mapM_map]
    exact (Library.Runs.mapM_eq_map fun k hk => decimalOctet_toString (octets_lt hk)).trans
      (by rw [List.map_id'])
  rw [pton, if_neg (notMem_longToIp n (by decide) (by decide)), inetPton4, splitOn_longToIp, hmap]
  rfl

def safiOf (n : ℕ) : SAFI := if 224 ≤ n / 2 ^ 24 % 256 ∧ n / 2 ^ 24 % 256 < 240 then .multicast else .unicast

theorem detectSafi_longToIp (n : ℕ) : detectSafi (longToIp n) = some (safiOf n) := by
  have hdot : '.' ∈ (longToIp n).toList := by simp [longToIp, octets]
  have hhead : (split "." (longToIp n)).head? = some (toString (n / 2 ^ 24 % 256)) := by
    have hsplit : split "." (longToIp n) =
        (((longToIp n).toList.splitOn '.').map String.ofList) := by
      rw [split, List.splitOn]
      exact congrArg (List.map String.ofList) (splitFrom_singleton '.' _)
    rw [hsplit, splitOn_longToIp, octets]
    simp only [List.map_cons, List.head?_cons, String.ofList_toList]
  rw [detectSafi, if_pos hdot, hhead, Option.bind_some, pyInt_toString, Option.map_some, safiOf]
  refine congrArg some (if_congr ?_ rfl rfl)
  omega

def prefixText (a mask : ℕ) : String := longToIp a ++ "/" ++ toString mask

theorem toList_prefixText (a mask : ℕ) :
    (prefixText a mask).toList = (longToIp a).toList ++ '/' :: (toString mask).toList := by
  simp [prefixText, String.toList_append]

theorem isToken_prefixText (a mask : ℕ) : IsToken (prefixText a mask).toList := by
  rw [toList_prefixText]
  refine ⟨List.append_ne_nil_of_right_ne_nil _ (List.cons_ne_nil _ _), fun c hc => ?_⟩
  rcases List.mem_append.mp hc with hc | hc
  · exact (isToken_longToIp a).2 c hc
  · rcases List.mem_cons.mp hc with rfl | hc
    · exact isTokenChar_of_toNat (by decide) (by decide)
    · exact isTokenChar_of_isDigit (isDigit_toString hc)

theorem addressAndMask_prefixText (a mask : ℕ) :
    addressAndMask (prefixText a mask) = (longToIp a, (mask : ℤ)) := by
  have hip : ∀ c ∈ (longToIp a).toList, decide (c = '/') = false := fun c hc =>
    decide_eq_false fun h => notMem_longToIp a (by decide) (by decide) (h ▸ hc)
  have hmask : ∀ c ∈ (toString mask).toList, decide (c = '/') = false := fun c hc =>
    decide_eq_false fun h => absurd (isDigit_toString hc) (by rw [h]; decide)
  have hsplit : split "/" (prefixText a mask) = [longToIp a, toString mask] := by
    have hsep : "/".toList = ['/'] := rfl
    rw [split, hsep, splitFrom_singleton, toList_prefixText,
      List.splitOnP_append_cons _ _ (by decide), List.splitOnP_eq_singleton hip,
      List.splitOnP_eq_singleton hmask]
    simp only [List.singleton_append, List.map_cons, List.map_nil, String.ofList_toList]
  simp only [addressAndMask, hsplit, pyInt_toString, Option.getD_some]

section routes
variable {β : Type*} (pton6 : String → Option Packed) (extra : β)
  (other : String → List String → RouteChange β → Except Failure (Option (ℕ × RouteChange β)))

theorem insertStaticRoute_prefixText (a : ℕ) {mask : ℕ} (hmask : mask ≤ 32) :
    insertStaticRoute pton6 extra (prefixText a mask) =
      .ok (some ⟨⟨false, safiOf a, octets a, mask, none, .announce⟩, ⟨none, none, extra⟩⟩) := by
  have hbytes : ¬ (octets a).length < maskToBytes ((mask : ℤ).toNat) := by
    have hlength : (octets a).length = 4 := rfl
    rw [hlength, Int.toNat_natCast, maskToBytes]
    omega
  have hipv4 : ':' ∉ (longToIp a).toList := notMem_longToIp a (by decide) (by decide)
  simp only [insertStaticRoute, addressAndMask_prefixText, detectSafi_longToIp, pton_longToIp]
  rw [if_neg (by omega), if_neg (by omega), if_neg (by omega), if_neg hbytes, decide_eq_false hipv4,
    Int.toNat_natCast]

theorem toLower_of_toNat {c : Char} (h : c.toNat ≤ 64) : c.toLower = c := by
  rw [Char.toLower, dif_neg]
  rintro ⟨hge, -⟩
  have hcode : 65 ≤ c.toNat := UInt32.le_iff_toNat_le.mp hge
  omega

theorem routeNextHop_longToIp (nexthopself : Option Packed) (b : ℕ) {route : RouteChange β}
    (hnone : route.attributes.nextHop = none) (hipv4 : route.nlri.ipv6 = false)
    (hsafi : route.nlri.safi = .unicast ∨ route.nlri.safi = .multicast) :
    routeNextHop pton6 nexthopself (longToIp b) route =
      some { route with
        nlri := { route.nlri with nexthop := some (octets b) }
        attributes := { route.attributes with nextHop := some (octets b) } } := by
  have hself : ¬ (longToIp b).toList.map Char.toLower = "self".toList := by
    have hlower : (longToIp b).toList.map Char.toLower = (longToIp b).toList := by
      refine (List.map_congr_left fun c hc => ?_).trans (List.map_id _)
      rcases mem_longToIp hc with rfl | hc
      · rfl
      · exact toLower_of_toNat ((toNat_of_isDigit hc).2.trans (by norm_num))
    intro h
    have hmem : 's' ∈ (longToIp b).toList := by
      rw [← hlower, h]
      decide
    exact notMem_longToIp b (by decide) (by decide) hmem
  rw [routeNextHop, hnone, if_neg (by decide), if_neg hself, pton_longToIp, Option.map_some,
    if_pos ⟨hipv4, hsafi⟩]

end routes

instance (path : AsPath) (n : ℕ) : Decidable (path.Plain n) :=
  match path with
  | .segments _ _ => inferInstanceAs (Decidable (n < 2 ^ 63))
  | .flat _ => inferInstanceAs (Decidable True)

theorem newASN_word (path : AsPath) (n : ℕ) :
    newASN (path.word n) = if path.Plain n then some (n : ℤ) else none := by
  have hplain : path.Plain n → newASN (path.word n) = some (n : ℤ) := fun h => by
    rw [(path.word_eq_iff n).mpr h, newASN_toString]
  split_ifs with h
  · exact hplain h
  · cases path with
    | segments sequence set =>
      have hlong : ¬ n < 2 ^ 63 := h
      rw [AsPath.word, reprNum, if_neg hlong, newASN_suffix]
    | flat l => exact absurd trivial h

theorem word_ne_bracket (path : AsPath) (n : ℕ) {bracket : String}
    (hb : bracket = "(" ∨ bracket = ")" ∨ bracket = "]") : path.word n ≠ bracket := by
  obtain ⟨c, l, hl⟩ := List.exists_cons_of_ne_nil (ne_nil_toString n)
  have hdigit : c.isDigit = true := isDigit_toString (hl ▸ List.mem_cons_self)
  have hmem : c ∈ (path.word n).toList := by
    cases path with
    | segments sequence set =>
      rw [AsPath.word, reprNum]
      split_ifs
      · rw [hl]
        exact List.mem_cons_self
      · rw [String.toList_append, hl]
        exact List.mem_cons_self
    | flat l' =>
      rw [AsPath.word, hl]
      exact List.mem_cons_self
  rintro rfl
  rcases hb with hb | hb | hb
  all_goals
    rw [hb] at hmem
    obtain rfl := List.mem_singleton.mp hmem
    exact absurd hdigit (by decide)

theorem aspathTokens_words (path : AsPath) (numbers : List ℕ) (asSeq : List ℤ) (tokens : List String) :
    aspathTokens false (numbers.map path.word ++ "]" :: tokens) asSeq [] =
      if ∀ n ∈ numbers, path.Plain n then
        some ((asSeq ++ numbers.map fun n => (n : ℤ), []), tokens) else none := by
  induction numbers generalizing asSeq with
  | nil => simp [aspathTokens]
  | cons n numbers ih =>
    rw [List.map_cons, List.cons_append, aspathTokens, if_neg (word_ne_bracket path n (Or.inl rfl)),
      if_neg (word_ne_bracket path n (Or.inr (Or.inl rfl))),
      if_neg (word_ne_bracket path n (Or.inr (Or.inr rfl))), newASN_word]
    by_cases hn : path.Plain n
    · rw [if_pos hn, Option.bind_some, ih]
      simp [hn]
    · rw [if_neg hn, Option.bind_none, if_neg fun h => hn (h n List.mem_cons_self)]

theorem mem_reprNum {n : ℕ} {c : Char} (hc : c ∈ (reprNum n).toList) : c.isDigit = true ∨ c = 'L' := by
  rw [reprNum] at hc
  split_ifs at hc
  · exact Or.inl (isDigit_toString hc)
  · rw [String.toList_append, List.mem_append] at hc
    rcases hc with hc | hc
    · exact Or.inl (isDigit_toString hc)
    · exact Or.inr (List.mem_singleton.mp hc)

theorem mem_asPathText (path : AsPath) {c : Char} (hc : c ∈ (asPathText path.items).toList) :
    c = ' ' ∨ c.isDigit = true ∨ c = 'L' := by
  rw [asPathText, String.toList_ofList, String.toList_intercalate] at hc
  obtain ⟨hmem, hkept⟩ := List.mem_filter.mp hc
  rcases mem_intercalate hmem with hblank | ⟨l, hl, hcl⟩
  · exact Or.inl (List.mem_singleton.mp hblank)
  · obtain ⟨w, hw, rfl⟩ := List.mem_map.mp hl
    obtain ⟨item, -, rfl⟩ := List.mem_map.mp hw
    have hword : c ∈ item.str.toList.filter Bgp.kept := List.mem_filter.mpr ⟨hcl, hkept⟩
    rw [item.filter_str] at hword
    rcases mem_intercalate hword with hblank | ⟨l, hl, hcl⟩
    · exact Or.inl (List.mem_singleton.mp hblank)
    · obtain ⟨w, hw, rfl⟩ := List.mem_map.mp hl
      cases item with
      | num n =>
        obtain rfl := List.mem_singleton.mp hw
        exact Or.inr (Or.inl (isDigit_toString hcl))
      | seq numbers =>
        obtain ⟨n, -, rfl⟩ := List.mem_map.mp hw
        exact Or.inr (mem_reprNum hcl)

theorem asPathText_tokens (path : AsPath) :
    (∀ c ∈ (asPathText path.items).toList, IsTokenChar c ∨ c = ' ') ∧
    (words (fun c => c = ' ') (asPathText path.items).toList).map String.ofList =
      path.numbers.map path.word := by
  have hchars : ∀ c ∈ (asPathText path.items).toList,
      (IsTokenChar c ∨ c = ' ') ∧ Bgp.isSpace c = decide (c = ' ') := by
    intro c hc
    rcases mem_asPathText path hc with rfl | hc | rfl
    · exact ⟨Or.inr rfl, by decide⟩
    · have htoken := isTokenChar_of_isDigit hc
      exact ⟨Or.inl htoken, by rw [(kept_of_isDigit hc).2, htoken.ne_blank]⟩
    · exact ⟨Or.inl (isTokenChar_of_toNat (by decide) (by decide)), by decide⟩
  refine ⟨fun c hc => (hchars c hc).1, ?_⟩
  rw [words_congr fun c hc => (hchars c hc).2.symm]
  exact path.splitWords_items

theorem split_cleaned_text {kind pfx nextHop asPath : String} (hkind : IsToken kind.toList)
    (hpfx : IsToken pfx.toList) (hnextHop : IsToken nextHop.toList)
    (hpath : ∀ c ∈ asPath.toList, IsTokenChar c ∨ c = ' ') :
    split " " (cleaned (kind ++ " route " ++ pfx ++ " next-hop " ++ nextHop ++ " as-path [ " ++
        asPath ++ " ]")) =
      kind :: "route" :: pfx :: "next-hop" :: nextHop :: "as-path" :: "[" ::
        ((words (fun c => c = ' ') asPath.toList).map String.ofList ++ ["]"]) := by
  have hroute : IsToken "route".toList := by simp [IsToken, IsTokenChar, isAsciiSpace]
  have hnext : IsToken "next-hop".toList := by simp [IsToken, IsTokenChar, isAsciiSpace]
  have has : IsToken "as-path".toList := by simp [IsToken, IsTokenChar, isAsciiSpace]
  have htext : kind ++ " route " ++ pfx ++ " next-hop " ++ nextHop ++ " as-path [ " ++ asPath ++ " ]" =
      String.ofList ((kind.toList ++ ' ' :: ("route".toList ++ ' ' :: (pfx.toList ++ ' ' ::
        ("next-hop".toList ++ ' ' :: (nextHop.toList ++ ' ' :: ("as-path".toList ++ [' '])))))) ++
        '[' :: ((' ' :: (asPath.toList ++ [' '])) ++ [']'])) :=
    String.toList_injective (by simp [String.toList_append])
  have hchars : ∀ w : List Char, IsToken w → ∀ c ∈ w, IsTokenChar c ∨ c = ' ' := fun w hw c hc =>
    Or.inl (hw.2 c hc)
  have hpadded : ∀ w l : List Char, (∀ c ∈ w, IsTokenChar c ∨ c = ' ') →
      (∀ c ∈ l, IsTokenChar c ∨ c = ' ') → ∀ c ∈ w ++ ' ' :: l, IsTokenChar c ∨ c = ' ' := by
    intro w l hw hl c hc
    rcases List.mem_append.mp hc with hc | hc
    · exact hw c hc
    · rcases List.mem_cons.mp hc with hc | hc
      · exact Or.inr hc
      · exact hl c hc
  have hnil : ∀ c ∈ ([] : List Char), IsTokenChar c ∨ c = ' ' := fun c hc => absurd hc List.not_mem_nil
  have hbracket : ∀ l : List Char, words (fun c => c = ' ') ('[' :: ' ' :: l) =
      ['['] :: words (fun c => c = ' ') l := fun l =>
    (words_append_cons (by decide) ['['] l).trans
      (congrArg (· ++ _) (words_of_forall (List.cons_ne_nil _ _) (by simp)))
  have hend : words (fun c => c = ' ') [']'] = [[']']] :=
    words_of_forall (List.cons_ne_nil _ _) (by simp)
  rw [htext, split_cleaned]
  · simp only [List.append_assoc, List.cons_append, List.nil_append, words_token_append hkind,
      words_token_append hroute, words_token_append hpfx, words_token_append hnext,
      words_token_append hnextHop, words_token_append has, hbracket]
    rw [words_cons (by decide), words_append_cons (by decide), words_cons (by decide), hend]
    simp
  · exact hpadded _ _ (hchars _ hkind) (hpadded _ _ (hchars _ hroute) (hpadded _ _ (hchars _ hpfx)
      (hpadded _ _ (hchars _ hnext) (hpadded _ _ (hchars _ hnextHop) (hpadded _ _ (hchars _ has) hnil)))))
  · exact hpadded [] _ hnil (hpadded _ _ hpath hnil)
  · intro c hc
    rw [List.head?_append_of_ne_nil _ hkind.1] at hc
    exact hkind.2 c (List.mem_of_head? hc)
  · exact List.append_ne_nil_of_left_ne_nil hkind.1 _

def actionOf : CommandKind → OUT
  | .announce => .announce
  | .withdraw => .withdraw

/-- A command of a prefix and a next hop in canonical form, with a path as a speaker printed it. -/
structure Writes (c : Command) (a mask b : ℕ) (path : AsPath) : Prop where
  pfx : c.route.pfx = prefixText a mask
  mask : mask ≤ 32
  nextHop : chosenNextHop c.route c.nextHop = longToIp b
  asPath : c.route.asPath = asPathText path.items

section commands
variable {β : Type*} (pton6 : String → Option Packed) (extra : β)
  (other : String → List String → RouteChange β → Except Failure (Option (ℕ × RouteChange β)))

def readChange (a mask b : ℕ) (numbers : List ℕ) (action : OUT) : RouteChange β :=
  ⟨⟨false, safiOf a, octets a, mask, some (octets b), action⟩,
    ⟨some (octets b), some (numbers.map fun n => (n : ℤ), []), extra⟩⟩

theorem singleStaticRoute_text (nexthopself : Option Packed) {a mask b : ℕ} (hmask : mask ≤ 32)
    (path : AsPath) : singleStaticRoute pton6 extra other nexthopself (prefixText a mask ::
        "next-hop" :: longToIp b :: "as-path" :: "[" :: (path.numbers.map path.word ++ ["]"])) =
      .ok (if ∀ n ∈ path.numbers, path.Plain n then
        some (readChange extra a mask b path.numbers .announce) else none) := by
  have hsafi : safiOf a = .unicast ∨ safiOf a = .multicast := by
    rw [safiOf]
    split_ifs
    · exact Or.inr rfl
    · exact Or.inl rfl
  have hnext : routeNextHop pton6 nexthopself (longToIp b) (⟨⟨false, safiOf a, octets a, mask, none,
      .announce⟩, ⟨none, none, extra⟩⟩ : RouteChange β) = some ⟨⟨false, safiOf a, octets a, mask,
      some (octets b), .announce⟩, ⟨some (octets b), none, extra⟩⟩ :=
    routeNextHop_longToIp pton6 nexthopself b rfl rfl hsafi
  have hpath : ∀ route : RouteChange β, routeAspath "[" (path.numbers.map path.word ++ ["]"]) route =
      if ∀ n ∈ path.numbers, path.Plain n then some ({ route with attributes :=
        { route.attributes with asPath := some (path.numbers.map fun n => (n : ℤ), []) } }, []) else
        none := by
    intro route
    rw [routeAspath, if_pos rfl, aspathTokens_words]
    split_ifs
    · rfl
    · rfl
  have hcommands : routeCommands pton6 other nexthopself
      ("next-hop" :: longToIp b :: "as-path" :: "[" :: (path.numbers.map path.word ++ ["]"])).length
      ("next-hop" :: longToIp b :: "as-path" :: "[" :: (path.numbers.map path.word ++ ["]"]))
      ⟨⟨false, safiOf a, octets a, mask, none, .announce⟩, ⟨none, none, extra⟩⟩ =
      .ok (if ∀ n ∈ path.numbers, path.Plain n then
        some (readChange extra a mask b path.numbers .announce) else none) := by
    rw [List.length_cons, routeCommands, if_pos (Or.inl rfl), if_pos rfl, hnext]
    simp only [Option.map_some]
    rw [List.length_cons, List.length_cons, routeCommands, if_pos (Or.inr (Or.inl rfl)), if_neg (by decide),
      hpath]
    by_cases hplain : ∀ n ∈ path.numbers, path.Plain n
    · simp only [if_pos hplain, routeCommands]
      rfl
    · simp only [if_neg hplain]
  rw [singleStaticRoute, if_neg (by simp), insertStaticRoute_prefixText pton6 extra a hmask]
  simp only [Except.bind, hcommands]
  by_cases hplain : ∀ n ∈ path.numbers, path.Plain n
  · rw [if_pos hplain]
    rfl
  · rw [if_neg hplain]
    rfl

def kindText : CommandKind → String
  | .announce => "announce"
  | .withdraw => "withdraw"

theorem text_eq {c : Command} {a mask b : ℕ} {path : AsPath} (hc : Writes c a mask b path) :
    c.text = kindText c.kind ++ " route " ++ prefixText a mask ++ " next-hop " ++ longToIp b ++
      " as-path [ " ++ asPathText path.items ++ " ]" := by
  rw [Command.text, ← hc.pfx, ← hc.nextHop, ← hc.asPath]
  cases c.kind with
  | announce => rfl
  | withdraw => rfl

theorem notMem_text {c : Command} {a mask b : ℕ} {path : AsPath} (hc : Writes c a mask b path) {d : Char}
    (hdigit : d.isDigit = false) (hkind : d ∉ (kindText c.kind).toList)
    (hwords : d ∉ " route/next-hop.as-path[L]".toList) : d ∉ c.text.toList := by
  have hnot : ∀ e : Char, e.isDigit = true → d ≠ e := fun e he h => by
    rw [h, he] at hdigit
    exact absurd hdigit (by decide)
  have hne : ∀ e ∈ " route/next-hop.as-path[L]".toList, d ≠ e := fun e he h => hwords (h ▸ he)
  have hip : ∀ n, d ∉ (longToIp n).toList := fun n => notMem_longToIp n (hne '.' (by decide)) hdigit
  have hprefix : d ∉ (prefixText a mask).toList := by
    rw [toList_prefixText, List.mem_append, List.mem_cons]
    rintro (h | h | h)
    · exact hip a h
    · exact hne '/' (by decide) h
    · exact hnot d (isDigit_toString h) rfl
  have hpath : d ∉ (asPathText path.items).toList := by
    intro h
    rcases mem_asPathText path h with h | h | h
    · exact hne ' ' (by decide) h
    · exact hnot d h rfl
    · exact hne 'L' (by decide) h
  simp only [String.reduceToList, List.mem_cons, List.not_mem_nil, or_false, not_or] at hwords
  rw [text_eq hc]
  simp [String.toList_append, hkind, hprefix, hip, hpath, hwords]

theorem not_contains_self {c : Command} {a mask b : ℕ} {path : AsPath} (hc : Writes c a mask b path) :
    ¬ Contains "self" c.text := by
  refine not_contains_of_notMem (by decide : 'f' ∈ "self".toList) (notMem_text hc (by decide) ?_ (by decide))
  cases c.kind with
  | announce => decide
  | withdraw => decide

theorem parseApiRoute_eq {c : Command} {a mask b : ℕ} {path : AsPath} (hc : Writes c a mask b path)
    (peers : List (String × Packed)) (action : OUT) :
    parseApiRoute pton6 extra other c.text peers action =
      .ok ((if ∀ n ∈ path.numbers, path.Plain n then
        some (readChange extra a mask b path.numbers .announce) else none).map fun route =>
          peers.map fun p => (p.1, withAction action route)) := by
  obtain ⟨hchars, hwords⟩ := asPathText_tokens path
  have hkind : IsToken (kindText c.kind).toList := by
    cases c.kind with
    | announce => simp [kindText, IsToken, IsTokenChar, isAsciiSpace]
    | withdraw => simp [kindText, IsToken, IsTokenChar, isAsciiSpace]
  have htokens : (split " " (cleaned c.text)).drop 1 = "route" :: prefixText a mask :: "next-hop" ::
      longToIp b :: "as-path" :: "[" :: (path.numbers.map path.word ++ ["]"]) := by
    rw [text_eq hc, split_cleaned_text hkind (isToken_prefixText a mask) (isToken_longToIp b) hchars,
      hwords]
    rfl
  simp only [parseApiRoute, htokens]
  rw [if_neg (by simp), if_neg (by simp), if_neg (not_contains_self hc), List.tail_cons,
    singleStaticRoute_text pton6 extra other none hc.mask path]
  rfl

theorem withAction_readChange (a mask b : ℕ) (numbers : List ℕ) (kind : CommandKind) :
    withAction (actionOf kind) (readChange extra a mask b numbers .announce) =
      readChange extra a mask b numbers (actionOf kind) := by
  cases kind with
  | announce => rfl
  | withdraw => rfl

/-- A command is read back as what it was made of, for every neighbor, or as nothing where a
number of its path has a suffix. -/
theorem parseApiRoute_text {c : Command} {a mask b : ℕ} {path : AsPath} (hc : Writes c a mask b path)
    (peers : List (String × Packed)) :
    parseApiRoute pton6 extra other c.text peers (actionOf c.kind) =
      .ok (if ∀ n ∈ path.numbers, path.Plain n then
        some (peers.map fun p => (p.1, readChange extra a mask b path.numbers (actionOf c.kind)))
      else none) := by
  rw [parseApiRoute_eq pton6 extra other hc]
  split_ifs
  · simp only [Option.map_some, withAction_readChange]
  · rfl

end commands

def webCommand : Command :=
  ⟨.announce, ⟨"10.1.0.0/16", "172.0.0.1", "igp", "100 20", .empty, none⟩, some "172.0.1.3"⟩

theorem writes_webCommand :
    Writes webCommand (10 * 2 ^ 24 + 2 ^ 16) 16 (172 * 2 ^ 24 + 2 ^ 8 + 3) (.segments [100] [20]) where
  pfx := by decide +kernel
  mask := by decide
  nextHop := by decide +kernel
  asPath := by decide +kernel

theorem parseApiRoute_text_webCommand :
    parseApiRoute (fun _ => none) () (fun _ _ _ => .ok none)
        "announce route 10.1.0.0/16 next-hop 172.0.1.3 as-path [ 100 20 ]" [("A", [172, 0, 0, 100])]
        .announce =
      .ok (some [("A", ⟨⟨false, .unicast, [10, 1, 0, 0], 16, some [172, 0, 1, 3], .announce⟩,
        ⟨some [172, 0, 1, 3], some ([100, 20], []), ()⟩⟩)]) :=
  (parseApiRoute_text (fun _ => none) () (fun _ _ _ => .ok none) writes_webCommand
    [("A", [172, 0, 0, 100])]).trans (by decide +kernel)

end Hispar.Exabgp
