import Hispar.PolicyParser.Match

/-!
# The generated policy

Every rule of an outbound document becomes an assignment to a letter, with the
next letter as its fallback, and the letter after the last rule is assigned the
dropping policy. The assignments are written in reverse, so that each stands
below its fallback, and the first letter is returned.
-/
namespace Hispar.PolicyParser
open Library

def rulesAlpha : List String := "abcdefghijklmnopqrstuvwxyz".toList.map String.singleton

def hexDigits (width n : ℕ) : List Char :=
  (List.range width).reverse.map fun i => Nat.digitChar (n / 16 ^ i % 16)

def reprChar (quote : ℕ) (c : Char) : List Char :=
  if c.toNat = quote ∨ c.toNat = 92 then [Char.ofNat 92, c]
  else if c.toNat = 9 then [Char.ofNat 92, 't']
  else if c.toNat = 10 then [Char.ofNat 92, 'n']
  else if c.toNat = 13 then [Char.ofNat 92, 'r']
  else if 32 ≤ c.toNat ∧ c.toNat < 127 then [c]
  else if c.toNat < 256 then Char.ofNat 92 :: 'x' :: hexDigits 2 c.toNat
  else if c.toNat < 65536 then Char.ofNat 92 :: 'u' :: hexDigits 4 c.toNat
  else Char.ofNat 92 :: 'U' :: hexDigits 8 c.toNat

def reprText (s : String) : String :=
  let quote := if (∃ c ∈ s.toList, c.toNat = 39) ∧ ∀ c ∈ s.toList, c.toNat ≠ 34 then 34 else 39
  String.ofList ('u' :: Char.ofNat quote :: s.toList.flatMap (reprChar quote) ++ [Char.ofNat quote])

def joined (sep : String) (l : List String) : String :=
  String.join (l.zipIdx.map fun s => if 0 < s.2 then sep ++ s.1 else s.1)

def strNames (l : List String) : String := "[" ++ joined ", " (l.map reprText) ++ "]"

theorem isAscii_join {l : List String} : IsAscii (String.join l) ↔ ∀ s ∈ l, IsAscii s := by
  simp only [IsAscii, String.toList_join, List.forall_mem_flatMap]

theorem isAscii_joined {sep : String} (hsep : IsAscii sep) (l : List String) :
    IsAscii (joined sep l) ↔ ∀ s ∈ l, IsAscii s := by
  have hone : ∀ s : String × ℕ, IsAscii (if 0 < s.2 then sep ++ s.1 else s.1) ↔ IsAscii s.1 := by
    intro s
    split_ifs
    · rw [isAscii_append, and_iff_right hsep]
    · rfl
  have hmem : ∀ s, s ∈ l ↔ ∃ i, (s, i) ∈ l.zipIdx := by
    intro s
    simp [List.mem_iff_getElem?]
  rw [joined, isAscii_join, List.forall_mem_map]
  simp only [hone, hmem]
  exact ⟨fun h s hs => hs.elim fun i hi => h (s, i) hi, fun h s hs => h s.1 ⟨s.2, hs⟩⟩

theorem isAscii_reprText (s : String) : IsAscii (reprText s) := by
  have hhex : ∀ width n, ∀ c ∈ hexDigits width n, c.toNat < 128 := by
    intro width n c hc
    obtain ⟨i, -, rfl⟩ := List.mem_map.mp hc
    have hdigit : ∀ k < 16, (Nat.digitChar k).toNat < 128 := by decide
    exact hdigit _ (Nat.mod_lt _ (by norm_num))
  have hchar : ∀ quote < 128, ∀ c, ∀ d ∈ reprChar quote c, d.toNat < 128 := by
    intro quote hquote c d hd
    have hback : (Char.ofNat 92).toNat < 128 := by decide
    unfold reprChar at hd
    split_ifs at hd <;> simp only [List.mem_cons, List.not_mem_nil, or_false] at hd
    · rcases hd with rfl | rfl <;> omega
    · rcases hd with rfl | rfl <;> decide
    · rcases hd with rfl | rfl <;> decide
    · rcases hd with rfl | rfl <;> decide
    · rw [hd]
      omega
    all_goals
      rcases hd with rfl | rfl | hd
      · decide
      · decide
      · exact hhex _ _ d hd
  rw [IsAscii, reprText]
  generalize hquote : (if (∃ c ∈ s.toList, c.toNat = 39) ∧ ∀ c ∈ s.toList, c.toNat ≠ 34 then 34
    else 39) = quote
  have hlt : quote < 128 ∧ (Char.ofNat quote).toNat < 128 := by
    split_ifs at hquote <;> subst hquote <;> decide
  simp only [String.toList_ofList, List.cons_append, List.forall_mem_cons, List.forall_mem_append,
    List.forall_mem_flatMap]
  exact ⟨by decide, hlt.2, fun c _ => hchar quote hlt.1 c, hlt.2, by simp⟩

theorem isAscii_strNames (l : List String) : IsAscii (strNames l) := by
  have hsep : IsAscii ", " := by simp [IsAscii]
  rw [strNames, isAscii_append, isAscii_append, isAscii_joined hsep, List.forall_mem_map]
  exact ⟨⟨by simp [IsAscii], fun s _ => isAscii_reprText s⟩, by simp [IsAscii]⟩

def Value.str : Value → Option AsciiText
  | .text s => if h : IsAscii s then some ⟨s, h⟩ else none
  | .names l => some ⟨strNames l, isAscii_strNames l⟩
  | .other shown => some shown

structure Rule where
  ipPrefix : String
  srcip : AsciiText
  dstport : AsciiText
  srcport : AsciiText
  time : AsciiText
  latency : AsciiText
  loss : AsciiText
  cost : AsciiText
  routes : List String
  default : List String
  updateInterval : AsciiText
  policyType : AsciiText
  checkInterval : AsciiText

def Rule.init (ipPrefix : String) (rule : RuleData) : Option Rule :=
  rule.srcip.str.bind fun srcip => rule.dstport.str.bind fun dstport =>
  rule.srcport.str.bind fun srcport => rule.time.str.bind fun time =>
  rule.latency.str.bind fun latency => rule.loss.str.bind fun loss =>
  rule.cost.str.bind fun cost => rule.updateInterval.str.bind fun updateInterval =>
  rule.policyType.str.bind fun policyType => rule.checkInterval.str.map fun checkInterval =>
    { ipPrefix, srcip, dstport, srcport, time, latency, loss, cost, routes := rule.routes,
      default := rule.default, updateInterval, policyType, checkInterval }

inductive Match where
  | srcip
  | dstip
  | dstport
  | srcport
  | time

def generateMatchCase (case : Match) (value : String) : String :=
  match case with
  | .srcip => String.join ["match(srcip=IPPrefix(\"", value, "\"))"]
  | .dstip => String.join ["match(dstip=IPPrefix(\"", value, "\"))"]
  | .dstport => String.join ["match(dstport=", value, ")"]
  | .srcport => String.join ["match(srcport=", value, ")"]
  | .time => String.join ["match(time=HRange(", value, "))"]

def Rule.pred (r : Rule) : String :=
  let matchList : List (Match × String) := [(.srcip, r.srcip), (.dstip, r.ipPrefix), (.time, r.time),
    (.dstport, r.dstport), (.srcport, r.srcport)]
  joined " & " ((matchList.filter fun m => m.2 ≠ "*").map fun m => generateMatchCase m.1 m.2)

inductive Assignment where
  | updatePolicy (name : String) (rule : Rule) (fallback : String)
  | drop (name : String)

namespace Assignment

def name : Assignment → String
  | .updatePolicy name _ _ => name
  | .drop name => name

def line : Assignment → String
  | .updatePolicy name r fallback => String.join [name, " = UpdatePolicy(\"", r.ipPrefix, "\", (",
      r.pred, "), ", fallback, ", ", strNames r.routes, ", ", strNames r.default, ", \"",
      r.latency, "\", \"", r.loss, "\", \"", r.updateInterval, "\", \"", r.checkInterval,
      "\", \"", r.policyType, "\")"]
  | .drop name => name ++ " = drop"

end Assignment

def getRule (ipPrefix : String) (rule : RuleData) (i : ℕ) : Option Assignment :=
  (Rule.init ipPrefix rule).bind fun r => rulesAlpha[i]?.bind fun name =>
    rulesAlpha[i + 1]?.map fun fallback => .updatePolicy name r fallback

structure Output where
  lines : List Assignment
  returned : String

def Output.write (out : Output) : Option Output :=
  if ∀ a ∈ out.lines, IsAscii a.line then some out else none

def generateOne (ipPrefix : String) (acc : List Assignment × ℕ) (rule : RuleData) :
    Option (List Assignment × ℕ) :=
  (getRule ipPrefix rule acc.2).map fun a => (acc.1 ++ [a], acc.2 + 1)

def generateRules (acc : List Assignment × ℕ) (kv : String × List RuleData) :
    Option (List Assignment × ℕ) :=
  kv.2.foldlM (generateOne kv.1) acc

/-- `generate`; the template prints the characters of the returned name, which has one. -/
def generate (outboundData : Outbound) : Option Output :=
  (outboundData.items.foldlM generateRules (([] : List Assignment), 0)).bind fun acc =>
    rulesAlpha[acc.1.length]?.bind fun name => rulesAlpha[0]?.bind fun returned =>
      Output.write ⟨(acc.1 ++ [Assignment.drop name]).reverse, returned⟩

def iterated (outboundData : Outbound) : List (String × RuleData) :=
  outboundData.items.flatMap fun kv => kv.2.map (kv.1, ·)

/-- From the name on, the fallbacks lead through the rules, and then to the dropping policy. -/
inductive Follows (lines : List Assignment) : String → List Rule → Prop
  | drop {name} : .drop name ∈ lines → Follows lines name []
  | rule {name r fallback rules} : .updatePolicy name r fallback ∈ lines →
      Follows lines fallback rules → Follows lines name (r :: rules)

/-- Every name is assigned once, a fallback before its use, and the returned name leads through
the rules. -/
structure WellScoped (rules : List Rule) (out : Output) : Prop where
  distinct : (out.lines.map Assignment.name).Nodup
  fallbacks : ∀ before name r fallback after,
    out.lines = before ++ .updatePolicy name r fallback :: after →
      fallback ∈ before.map Assignment.name
  follows : Follows out.lines out.returned rules

def letter (i : ℕ) : String := rulesAlpha[i]?.getD ""

theorem getElem?_rulesAlpha {i : ℕ} {name : String} :
    rulesAlpha[i]? = some name ↔ i ≤ 25 ∧ name = letter i := by
  have hlen : rulesAlpha.length = 26 := rfl
  constructor
  · intro h
    obtain ⟨hi, -⟩ := List.getElem?_eq_some_iff.mp h
    exact ⟨by omega, by rw [letter, h, Option.getD_some]⟩
  · rintro ⟨hi, rfl⟩
    have hlt : i < rulesAlpha.length := by omega
    rw [letter, List.getElem?_eq_getElem hlt, Option.getD_some]

theorem letter_injective {i j : ℕ} (hi : i ≤ 25) (hj : j ≤ 25) (h : letter i = letter j) : i = j := by
  have hnodup : rulesAlpha.Nodup := by decide
  have hlen : rulesAlpha.length = 26 := rfl
  have hget : rulesAlpha[i]? = rulesAlpha[j]? :=
    (getElem?_rulesAlpha.mpr ⟨hi, rfl⟩).trans (h ▸ (getElem?_rulesAlpha.mpr ⟨hj, rfl⟩).symm)
  exact (List.getElem?_inj (by omega) hnodup).mp hget

def assigned : ℕ → List Rule → List Assignment
  | _, [] => []
  | i, r :: rules => .updatePolicy (letter i) r (letter (i + 1)) :: assigned (i + 1) rules

theorem length_assigned (i : ℕ) (rules : List Rule) : (assigned i rules).length = rules.length := by
  induction rules generalizing i with
  | nil => rfl
  | cons r rules ih => rw [assigned, List.length_cons, ih, List.length_cons]

def chain (i : ℕ) (rules : List Rule) : List Assignment :=
  assigned i rules ++ [.drop (letter (i + rules.length))]

theorem chain_zero (rules : List Rule) :
    chain 0 rules = assigned 0 rules ++ [.drop (letter rules.length)] := by
  rw [chain, Nat.zero_add]

theorem chain_cons (i : ℕ) (r : Rule) (rules : List Rule) :
    chain i (r :: rules) = .updatePolicy (letter i) r (letter (i + 1)) :: chain (i + 1) rules := by
  have hlast : i + (r :: rules).length = i + 1 + rules.length := by
    rw [List.length_cons]
    omega
  rw [chain, assigned, hlast]
  rfl

theorem map_name_chain (i : ℕ) (rules : List Rule) :
    (chain i rules).map Assignment.name = (List.range' i (rules.length + 1)).map letter := by
  induction rules generalizing i with
  | nil => rfl
  | cons r rules ih =>
    rw [chain_cons, List.map_cons, ih, List.length_cons, List.range'_succ, List.map_cons]
    rfl

theorem nodup_chain {i : ℕ} {rules : List Rule} (h : i + rules.length ≤ 25) :
    ((chain i rules).map Assignment.name).Nodup := by
  rw [map_name_chain]
  refine List.Nodup.map_on (fun a ha b hb hab => ?_) List.nodup_range'
  rw [List.mem_range'_1] at ha hb
  exact letter_injective (by omega) (by omega) hab

theorem follows_chain {lines : List Assignment} {i : ℕ} {rules : List Rule}
    (h : chain i rules ⊆ lines) : Follows lines (letter i) rules := by
  induction rules generalizing i with
  | nil => exact .drop (h (List.mem_singleton_self _))
  | cons r rules ih =>
    rw [chain_cons, List.cons_subset] at h
    exact .rule h.1 (ih h.2)

theorem scoped_chain {i : ℕ} {rules : List Rule} {before after : List Assignment}
    {name fallback : String} {r : Rule}
    (h : (chain i rules).reverse = before ++ .updatePolicy name r fallback :: after) :
    fallback ∈ before.map Assignment.name := by
  induction rules generalizing i after with
  | nil =>
    have hmem : .updatePolicy name r fallback ∈ (chain i []).reverse :=
      h ▸ List.mem_append_right before List.mem_cons_self
    simp [chain, assigned] at hmem
  | cons s rules ih =>
    rw [chain_cons, List.reverse_cons] at h
    rcases List.eq_nil_or_concat after with rfl | ⟨after, a, rfl⟩
    · -- the first rule is the last line, and its fallback the line above
      obtain ⟨hbefore, hlast⟩ := List.append_inj' h rfl
      obtain ⟨-, -, rfl⟩ := Assignment.updatePolicy.inj (List.cons.inj hlast).1
      rw [← hbefore, List.map_reverse, List.mem_reverse, map_name_chain, List.range'_succ]
      exact List.mem_cons_self
    · rw [List.concat_eq_append, ← List.cons_append, ← List.append_assoc] at h
      exact ih (List.append_inj' h rfl).1

theorem wellScoped_chain {rules : List Rule} (h : rules.length ≤ 25) :
    WellScoped rules ⟨(chain 0 rules).reverse, letter 0⟩ := by
  refine ⟨?_, fun _ _ _ _ _ => scoped_chain, follows_chain fun a ha => List.mem_reverse.mpr ha⟩
  rw [List.map_reverse, List.nodup_reverse]
  exact nodup_chain (by omega)

def Value.Shown (v : Value) : Prop := ∀ s, v = .text s → IsAscii s

def RuleData.read (rule : RuleData) : List Value :=
  [rule.srcip, rule.dstport, rule.srcport, rule.time, rule.latency, rule.loss, rule.cost,
    rule.updateInterval, rule.policyType, rule.checkInterval]

theorem Value.str_complete (v : Value) : (∃ t, v.str = some t) ↔ v.Shown := by
  cases v with
  | text s =>
    constructor
    · rintro ⟨t, ht⟩ s' hs
      rw [← Value.text.inj hs]
      by_contra hnot
      rw [Value.str, dif_neg hnot] at ht
      cases ht
    · exact fun h => ⟨⟨s, h s rfl⟩, by rw [Value.str, dif_pos (h s rfl)]⟩
  | names l => exact iff_of_true ⟨_, rfl⟩ fun s hs => Value.noConfusion hs
  | other shown => exact iff_of_true ⟨_, rfl⟩ fun s hs => Value.noConfusion hs

theorem bind_complete {α β : Type} {o : Option α} {f : α → Option β} {complete : Prop}
    (hf : ∀ t, (∃ r, f t = some r) ↔ complete) :
    (∃ r, o.bind f = some r) ↔ (∃ t, o = some t) ∧ complete := by
  cases o with
  | none => simp
  | some t => simp [← hf t]

theorem map_complete {α β : Type} {o : Option α} {f : α → β} :
    (∃ r, o.map f = some r) ↔ ∃ t, o = some t := by
  cases o <;> simp

theorem Rule.init_complete (ipPrefix : String) (rule : RuleData) :
    (∃ r, Rule.init ipPrefix rule = some r) ↔ ∀ v ∈ rule.read, v.Shown := by
  simp only [← Value.str_complete, RuleData.read, List.forall_mem_cons, List.not_mem_nil,
    false_imp_iff, implies_true, and_true]
  exact bind_complete fun _ => bind_complete fun _ => bind_complete fun _ => bind_complete fun _ =>
    bind_complete fun _ => bind_complete fun _ => bind_complete fun _ => bind_complete fun _ =>
    bind_complete fun _ => map_complete

theorem Rule.init_ipPrefix {ipPrefix : String} {rule : RuleData} {r : Rule}
    (h : Rule.init ipPrefix rule = some r) : r.ipPrefix = ipPrefix := by
  rw [Rule.init] at h
  iterate 9 obtain ⟨_, -, h⟩ := Option.bind_eq_some_iff.mp h
  obtain ⟨_, -, rfl⟩ := Option.map_eq_some_iff.mp h
  rfl

theorem generateOne_eq_some {ipPrefix : String} {acc acc' : List Assignment × ℕ} {rule : RuleData} :
    generateOne ipPrefix acc rule = some acc' ↔ ∃ r, Rule.init ipPrefix rule = some r ∧
      acc.2 + 1 ≤ 25 ∧
      acc' = (acc.1 ++ [.updatePolicy (letter acc.2) r (letter (acc.2 + 1))], acc.2 + 1) := by
  simp only [generateOne, getRule, Option.map_eq_some_iff, Option.bind_eq_some_iff,
    getElem?_rulesAlpha]
  constructor
  · rintro ⟨_, ⟨r, hr, _, ⟨-, rfl⟩, _, ⟨hi, rfl⟩, rfl⟩, rfl⟩
    exact ⟨r, hr, hi, rfl⟩
  · rintro ⟨r, hr, hi, rfl⟩
    exact ⟨_, ⟨r, hr, _, ⟨by omega, rfl⟩, _, ⟨hi, rfl⟩, rfl⟩, rfl⟩

theorem generate_loop {l : List (String × RuleData)} {acc acc' : List Assignment × ℕ}
    (hacc : acc.2 ≤ 25) :
    l.foldlM (fun acc x => generateOne x.1 acc x.2) acc = some acc' ↔
      ∃ rules, l.mapM (fun x => Rule.init x.1 x.2) = some rules ∧ acc.2 + rules.length ≤ 25 ∧
        acc' = (acc.1 ++ assigned acc.2 rules, acc.2 + rules.length) := by
  induction l generalizing acc with
  | nil =>
    rw [List.foldlM_nil, List.mapM_nil]
    constructor
    · intro h
      obtain rfl := Option.some.inj h
      exact ⟨[], rfl, hacc, by rw [assigned, List.append_nil]; rfl⟩
    · rintro ⟨rules, hrules, -, rfl⟩
      obtain rfl := Option.some.inj hrules
      rw [assigned, List.append_nil]
      rfl
  | cons x l ih =>
    rw [List.foldlM_cons, List.mapM_cons]
    constructor
    · intro h
      obtain ⟨acc₁, h₁, h⟩ := Option.bind_eq_some_iff.mp h
      obtain ⟨r, hr, hi, rfl⟩ := generateOne_eq_some.mp h₁
      obtain ⟨rules, hrules, hlen, rfl⟩ := (ih hi).mp h
      refine ⟨r :: rules, by rw [hr, hrules]; rfl, ?_, ?_⟩
      · rw [List.length_cons]
        omega
      · rw [assigned, List.append_assoc, List.singleton_append, List.length_cons, Nat.add_assoc,
          Nat.add_comm 1]
    · rintro ⟨_, hmapM, hlen, rfl⟩
      obtain ⟨r, hr, hmapM⟩ := Option.bind_eq_some_iff.mp hmapM
      obtain ⟨rules, hrules, hcons⟩ := Option.bind_eq_some_iff.mp hmapM
      obtain rfl := Option.some.inj hcons
      rw [List.length_cons] at hlen
      refine Option.bind_eq_some_iff.mpr ⟨_, generateOne_eq_some.mpr ⟨r, hr, by omega, rfl⟩, ?_⟩
      have hi : acc.2 + 1 ≤ 25 := by omega
      refine (ih hi).mpr ⟨rules, hrules, by simp only; omega, ?_⟩
      rw [assigned, List.append_assoc, List.singleton_append, List.length_cons, Nat.add_assoc,
        Nat.add_comm 1]

theorem generate_eq_some {outboundData : Outbound} {out : Output} :
    generate outboundData = some out ↔ ∃ rules,
      (iterated outboundData).mapM (fun x => Rule.init x.1 x.2) = some rules ∧
      rules.length ≤ 25 ∧ (∀ a ∈ chain 0 rules, IsAscii a.line) ∧
      out = ⟨(chain 0 rules).reverse, letter 0⟩ := by
  have hloop : outboundData.items.foldlM generateRules (([] : List Assignment), 0) =
      (iterated outboundData).foldlM (fun acc x => generateOne x.1 acc x.2) ([], 0) := by
    rw [iterated, Runs.foldlM_flatMap]
    refine congrArg (fun f => outboundData.items.foldlM f (([] : List Assignment), 0)) ?_
    funext acc kv
    rw [generateRules, List.foldlM_map]
  have hwrite : ∀ rules out', Output.write ⟨(chain 0 rules).reverse, letter 0⟩ = some out' ↔
      (∀ a ∈ chain 0 rules, IsAscii a.line) ∧ out' = ⟨(chain 0 rules).reverse, letter 0⟩ := by
    intro rules out'
    simp only [Output.write, List.mem_reverse]
    split_ifs with h
    · rw [Option.some.injEq, eq_comm, and_iff_right h]
    · simp [h]
  have hstart : (([] : List Assignment), 0).2 ≤ 25 := Nat.zero_le 25
  rw [generate, hloop]
  simp only [Option.bind_eq_some_iff, getElem?_rulesAlpha]
  constructor
  · rintro ⟨acc, hacc, _, ⟨hlen, rfl⟩, _, ⟨-, rfl⟩, hout⟩
    obtain ⟨rules, hrules, hle, rfl⟩ := (generate_loop hstart).mp hacc
    rw [List.nil_append, length_assigned] at hout
    obtain ⟨hascii, rfl⟩ := (hwrite rules out).mp (by rw [chain_zero]; exact hout)
    exact ⟨rules, hrules, by simpa using hle, hascii, rfl⟩
  · rintro ⟨rules, hrules, hle, hascii, rfl⟩
    have hrun := (generate_loop hstart).mpr ⟨rules, hrules, by simpa using hle, rfl⟩
    refine ⟨_, hrun, _, ⟨?_, rfl⟩, _, ⟨by omega, rfl⟩, ?_⟩
    · rwa [List.nil_append, length_assigned]
    · have hout : Output.write ⟨(assigned 0 rules ++
          [Assignment.drop (letter rules.length)]).reverse, letter 0⟩ =
        some ⟨(chain 0 rules).reverse, letter 0⟩ := by
        rw [← chain_zero]
        exact (hwrite rules _).mpr ⟨hascii, rfl⟩
      rw [List.nil_append, length_assigned]
      exact hout

theorem isAscii_letter (i : ℕ) : IsAscii (letter i) := by
  have halpha : IsAscii "abcdefghijklmnopqrstuvwxyz" := by simp [IsAscii]
  rw [letter]
  cases h : rulesAlpha[i]? with
  | none => simp [IsAscii]
  | some name =>
    obtain ⟨c, hc, rfl⟩ := List.mem_map.mp (List.mem_of_getElem? h)
    intro d hd
    rw [Option.getD_some, String.toList_singleton, List.mem_singleton] at hd
    exact hd ▸ halpha c hc

theorem isAscii_generateMatchCase (case : Match) {value : String} (h : IsAscii value) :
    IsAscii (generateMatchCase case value) := by
  cases case <;> simp only [generateMatchCase, isAscii_join, List.forall_mem_cons]
  all_goals exact ⟨by simp [IsAscii], h, by simp [IsAscii], fun _ hs => absurd hs List.not_mem_nil⟩

theorem isAscii_pred {r : Rule} (h : IsAscii r.ipPrefix) : IsAscii r.pred := by
  have hsep : IsAscii " & " := by simp [IsAscii]
  rw [Rule.pred, isAscii_joined hsep, List.forall_mem_map]
  intro m hm
  refine isAscii_generateMatchCase m.1 ?_
  have hmatch := (List.mem_filter.mp hm).1
  simp only [List.mem_cons, List.not_mem_nil, or_false] at hmatch
  rcases hmatch with rfl | rfl | rfl | rfl | rfl
  · exact r.srcip.2
  · exact h
  · exact r.time.2
  · exact r.dstport.2
  · exact r.srcport.2

theorem isAscii_line (i j : ℕ) (r : Rule) :
    IsAscii (Assignment.updatePolicy (letter i) r (letter j)).line ↔ IsAscii r.ipPrefix := by
  rw [Assignment.line, isAscii_join]
  constructor
  · intro h
    exact h r.ipPrefix (by simp)
  · intro h
    have hpred := isAscii_pred h
    have hconst : ∀ s ∈ [" = UpdatePolicy(\"", "\", (", "), ", ", ", ", \"", "\", \"", "\")"],
        IsAscii s := by simp [IsAscii]
    simp only [List.forall_mem_cons, List.not_mem_nil, false_imp_iff, implies_true,
      and_true] at hconst ⊢
    simp only [hconst, isAscii_letter, isAscii_strNames, h, hpred, r.latency.2, r.loss.2,
      r.updateInterval.2, r.checkInterval.2, r.policyType.2, and_self]

theorem isAscii_chain {i : ℕ} {rules : List Rule} :
    (∀ a ∈ chain i rules, IsAscii a.line) ↔ ∀ r ∈ rules, IsAscii r.ipPrefix := by
  induction rules generalizing i with
  | nil =>
    have hdrop : IsAscii (Assignment.drop (letter i)).line := by
      rw [Assignment.line, isAscii_append]
      exact ⟨isAscii_letter i, by simp [IsAscii]⟩
    simpa [chain, assigned] using hdrop
  | cons r rules ih => rw [chain_cons, List.forall_mem_cons, List.forall_mem_cons, isAscii_line, ih]

theorem rules_of_mapM {l : List (String × RuleData)} {rules : List Rule}
    (hrules : l.mapM (fun x => Rule.init x.1 x.2) = some rules) :
    rules.length = l.length ∧ ((∀ r ∈ rules, IsAscii r.ipPrefix) ↔ ∀ x ∈ l, IsAscii x.1) := by
  obtain ⟨rules', hrules', hrel⟩ := (Runs.mapM_forall₂_iff l
    (R := fun x (r : Rule) => r.ipPrefix = x.1)).mpr fun x hx => by
      obtain ⟨r, -, hr⟩ := Runs.exists_of_mapM hrules hx
      exact ⟨r, hr, Rule.init_ipPrefix hr⟩
  obtain rfl := Option.some.inj (hrules.symm.trans hrules')
  refine ⟨hrel.length_eq.symm, fun h x hx => ?_, fun h r hr => ?_⟩
  · obtain ⟨r, hr, he⟩ := Runs.exists_of_forall₂ hrel hx
    exact he ▸ h r hr
  · obtain ⟨x, hx, hinit⟩ := (Runs.mem_mapM hrules).mp hr
    exact Rule.init_ipPrefix hinit ▸ h x hx

/-- The policy is generated, and is a chain through the rules, exactly if there are at most 25
rules and all texts of them are ASCII. -/
theorem generate_wellScoped_iff (outboundData : Outbound) :
    (∃ out rules, generate outboundData = some out ∧
      (iterated outboundData).mapM (fun x => Rule.init x.1 x.2) = some rules ∧
      WellScoped rules out) ↔
    (iterated outboundData).length ≤ 25 ∧
      ∀ x ∈ iterated outboundData, IsAscii x.1 ∧ ∀ v ∈ x.2.read, v.Shown := by
  constructor
  · rintro ⟨out, rules, hout, hrules, -⟩
    obtain ⟨rules', hrules', hle, hascii, -⟩ := generate_eq_some.mp hout
    obtain rfl := Option.some.inj (hrules.symm.trans hrules')
    obtain ⟨hlength, hiff⟩ := rules_of_mapM hrules
    refine ⟨hlength ▸ hle, fun x hx => ⟨hiff.mp (isAscii_chain.mp hascii) x hx, ?_⟩⟩
    obtain ⟨r, -, hr⟩ := Runs.exists_of_mapM hrules hx
    exact (Rule.init_complete x.1 x.2).mp ⟨r, hr⟩
  · rintro ⟨hle, hall⟩
    obtain ⟨rules, hrules, -⟩ := (Runs.mapM_forall₂_iff (iterated outboundData)
      (R := fun _ (_ : Rule) => True)).mpr fun x hx => by
        obtain ⟨r, hr⟩ := (Rule.init_complete x.1 x.2).mpr (hall x hx).2
        exact ⟨r, hr, trivial⟩
    obtain ⟨hlength, hiff⟩ := rules_of_mapM hrules
    have hascii : ∀ a ∈ chain 0 rules, IsAscii a.line :=
      isAscii_chain.mpr (hiff.mpr fun x hx => (hall x hx).1)
    have hle' : rules.length ≤ 25 := hlength ▸ hle
    exact ⟨_, rules, generate_eq_some.mpr ⟨rules, hrules, hle', hascii, rfl⟩, hrules,
      wellScoped_chain hle'⟩

def manyRules : Outbound := .single "10.0.0.0/8" (List.replicate 26 ruleToX)

theorem generate_manyRules : (∀ x ∈ iterated manyRules, IsAscii x.1 ∧ ∀ v ∈ x.2.read, v.Shown) ∧
    ¬ ∃ out rules, generate manyRules = some out ∧
      (iterated manyRules).mapM (fun x => Rule.init x.1 x.2) = some rules ∧
      WellScoped rules out := by
  have hitems : iterated manyRules = List.replicate 26 ("10.0.0.0/8", ruleToX) := rfl
  refine ⟨fun x hx => ?_, ?_⟩
  · rw [hitems] at hx
    rw [List.eq_of_mem_replicate hx]
    simp [IsAscii, RuleData.read, ruleToX, Value.Shown]
  · rintro ⟨out, rules, hout, hrules, -⟩
    obtain ⟨rules', hrules', hle, -⟩ := generate_eq_some.mp hout
    obtain rfl := Option.some.inj (hrules.symm.trans hrules')
    have hlength := (rules_of_mapM hrules).1
    rw [hitems, List.length_replicate] at hlength
    omega

end Hispar.PolicyParser
