import Hispar.Bgp.Announcements
import Hispar.Bgp.BestPath
import Hispar.Library.Texts

/-!
# AS paths in the tables

The column of an AS path holds the printed list without brackets and commas, and
the decision divides it at white space again. The words are the numbers as they
were printed: inside a sequence or a set one of `2 ^ 63` or more has a suffix.
-/
namespace Hispar.Bgp
open Library

/-- An AS path: the sequence and the set of a speaker's message, or the flat list of a local
route. -/
inductive AsPath
  | segments (sequence set : List ℕ)
  | flat (l : List ℕ)

namespace AsPath

def items : AsPath → List AsPathItem
  | segments sequence set => [.seq sequence, .seq set]
  | flat l => l.map .num

def numbers : AsPath → List ℕ
  | segments sequence set => sequence ++ set
  | flat l => l

def Plain : AsPath → ℕ → Prop
  | segments _ _, n => n < 2 ^ 63
  | flat _, _ => True

/-- A speaker's message packs an AS number in two or four octets. -/
def Packed : AsPath → Prop
  | segments sequence set => ∀ n ∈ sequence ++ set, n < 2 ^ 32
  | flat _ => True

def word : AsPath → ℕ → String
  | segments _ _, n => reprNum n
  | flat _, n => toString n

end AsPath

/-- What the text of a path is to give back of its numbers. -/
structure Recovers (text : String) (numbers : List ℕ) : Prop where
  words : splitWords text = numbers.map toString
  length : aspathLength text = numbers.length
  advertised : ∀ n, numbers.head? = some n → getAdvertisedAs text = some (toString n)

def kept (c : Char) : Bool := c ∉ ['[', ']', ',']

theorem kept_of_isDigit {c : Char} (h : c.isDigit = true) : kept c = true ∧ isSpace c = false := by
  have hle := toNat_le_of_isDigit h
  have hge : 48 ≤ c.toNat := by
    simp only [Char.isDigit, Bool.and_eq_true, decide_eq_true_eq] at h
    exact UInt32.le_iff_toNat_le.mp h.1
  constructor
  · rw [kept, decide_eq_true_eq]
    intro hmem
    have hcode : c.toNat ∈ [91, 93, 44] := List.mem_map_of_mem (f := Char.toNat) hmem
    simp only [List.mem_cons, List.not_mem_nil, or_false] at hcode
    omega
  · simp only [isSpace, List.mem_cons, List.not_mem_nil, or_false, Bool.or_eq_false_iff,
      Bool.and_eq_false_iff, decide_eq_false_iff_not]
    omega

def IsNumeral (w : String) : Prop :=
  w.toList ≠ [] ∧ ∀ c ∈ w.toList, kept c = true ∧ isSpace c = false

theorem isNumeral_toString (n : ℕ) : IsNumeral (toString n) := by
  constructor
  · rw [Nat.toString_eq_repr, Nat.toList_repr]
    exact Nat.toDigits_ne_nil
  · intro c hc
    exact kept_of_isDigit (isDigit_toString hc)

theorem isNumeral_reprNum (n : ℕ) : IsNumeral (reprNum n) := by
  obtain ⟨hne, hall⟩ := isNumeral_toString n
  rw [reprNum]
  split_ifs with hn
  · exact ⟨hne, hall⟩
  · rw [IsNumeral, String.toList_append]
    constructor
    · exact List.append_ne_nil_of_left_ne_nil hne _
    · intro c hc
      rcases List.mem_append.mp hc with hc | hc
      · exact hall c hc
      · obtain rfl := List.mem_singleton.mp hc
        decide

theorem reprNum_eq_iff (n : ℕ) : reprNum n = toString n ↔ n < 2 ^ 63 := by
  rw [reprNum]
  split_ifs with hn
  · exact iff_of_true rfl hn
  · refine iff_of_false (fun h => ?_) hn
    have hlen := congrArg String.length h
    simp at hlen

theorem IsNumeral.filter {w : String} (hw : IsNumeral w) : w.toList.filter kept = w.toList :=
  List.filter_eq_self.mpr fun c hc => (hw.2 c hc).1

theorem words_numerals {ws : List String} (h : ∀ w ∈ ws, IsNumeral w) :
    words isSpace ([' '].intercalate (ws.map String.toList)) = ws.map String.toList := by
  rw [words_intercalate (by decide), List.flatMap_map, ← List.flatMap_singleton' (ws.map _),
    List.flatMap_map]
  apply List.flatMap_congr
  intro w hw
  exact words_of_forall (h w hw).1 fun c hc => ((h w hw).2 c hc).2

def AsPathItem.words : AsPathItem → List String
  | .num n => [toString n]
  | .seq l => l.map reprNum

theorem AsPathItem.isNumeral_words (item : AsPathItem) : ∀ w ∈ item.words, IsNumeral w := by
  intro w hw
  cases item with
  | num n =>
    obtain rfl := List.mem_singleton.mp hw
    exact isNumeral_toString n
  | seq l =>
    obtain ⟨n, -, rfl⟩ := List.mem_map.mp hw
    exact isNumeral_reprNum n

theorem AsPathItem.filter_str (item : AsPathItem) :
    item.str.toList.filter kept = [' '].intercalate (item.words.map String.toList) := by
  cases item with
  | num n =>
    rw [words, List.map_singleton, List.intercalate_singleton]
    exact (isNumeral_toString n).filter
  | seq l =>
    have hsep : (", ".toList).filter kept = [' '] := by decide
    have hopen : ("[".toList).filter kept = [] := by decide
    have hclose : ("]".toList).filter kept = [] := by decide
    have hwords : (l.map reprNum).map (List.filter kept ∘ String.toList) =
        (l.map reprNum).map String.toList :=
      List.map_congr_left fun w hw => ((seq l).isNumeral_words w hw).filter
    rw [str, String.toList_append, String.toList_append, List.filter_append, List.filter_append,
      hopen, hclose, List.nil_append, List.append_nil, String.toList_intercalate,
      filter_intercalate, hsep, List.map_map, hwords, words]

theorem splitWords_asPathText (asPath : List AsPathItem) :
    splitWords (asPathText asPath) = asPath.flatMap AsPathItem.words := by
  have htext : (asPathText asPath).toList =
      [' '].intercalate (asPath.map fun item => item.str.toList.filter kept) := by
    rw [asPathText, String.toList_ofList, String.toList_intercalate]
    refine (filter_intercalate kept _ _).trans ?_
    rw [List.map_map, List.map_map]
    rfl
  have hsplit : splitWords (asPathText asPath) =
      (words isSpace (asPathText asPath).toList).map String.ofList := rfl
  rw [hsplit, htext, words_intercalate (by decide), List.flatMap_map, List.map_flatMap]
  apply List.flatMap_congr
  intro item _
  rw [item.filter_str, words_numerals item.isNumeral_words, List.map_map]
  simp [Function.comp_def]

namespace AsPath
variable (path : AsPath)

theorem word_eq_iff (n : ℕ) : path.word n = toString n ↔ path.Plain n := by
  cases path with
  | segments sequence set => exact reprNum_eq_iff n
  | flat l => exact iff_of_true rfl trivial

theorem splitWords_items : splitWords (asPathText path.items) = path.numbers.map path.word := by
  rw [splitWords_asPathText]
  cases path with
  | segments sequence set =>
    have hitems : (segments sequence set).items.flatMap AsPathItem.words =
        sequence.map reprNum ++ (set.map reprNum ++ []) := rfl
    rw [hitems, List.append_nil, ← List.map_append]
    rfl
  | flat l =>
    rw [items, List.flatMap_map]
    exact List.map_eq_flatMap.symm

theorem aspathLength_items : aspathLength (asPathText path.items) = path.numbers.length := by
  rw [aspathLength, splitWords_items, List.length_map]

theorem getAdvertisedAs_items {n : ℕ} (hn : path.numbers.head? = some n) :
    getAdvertisedAs (asPathText path.items) = some (toString n) ↔ path.Plain n := by
  rw [getAdvertisedAs, splitWords_items, List.head?_map, hn, Option.map_some, Option.some.injEq,
    word_eq_iff]

theorem recovers_iff :
    Recovers (asPathText path.items) path.numbers ↔ ∀ n ∈ path.numbers, path.Plain n := by
  have hwords : splitWords (asPathText path.items) = path.numbers.map toString ↔
      ∀ n ∈ path.numbers, path.Plain n := by
    simp only [splitWords_items, List.map_inj_left, word_eq_iff]
  constructor
  · intro h
    exact hwords.mp h.words
  · intro hplain
    refine ⟨hwords.mpr hplain, path.aspathLength_items, fun n hn => ?_⟩
    exact (path.getAdvertisedAs_items hn).mpr (hplain n (List.mem_of_head? hn))

theorem Packed.plain {path : AsPath} (h : path.Packed) : ∀ n ∈ path.numbers, path.Plain n := by
  intro n hn
  cases path with
  | segments sequence set =>
    apply (h n hn).trans
    norm_num
  | flat l => trivial

end AsPath

theorem update_asPath (path : AsPath) {a : Attribute} (ha : a.asPath = some path.items)
    {peer : Peer} {ip : String} (hip : ip ∈ peer.ips) (state : Option String)
    (announce : Dict String String) (withdraw : Option (Families Unit))
    (notification : Option String) :
    ∃ peer' items rows, peer.update ⟨some ⟨some ip, state,
        some ⟨some a, some ⟨some announce⟩, withdraw⟩⟩, notification⟩ = some (peer', items) ∧
      peer'.inputRib = (if state = some "down" then [] else peer.inputRib) ++ rows ∧
      rows.map (fun r => (r.pfx, r.nextHop)) = announce.items ∧
      ∀ row ∈ rows, (Recovers row.asPath path.numbers ↔ ∀ n ∈ path.numbers, path.Plain n) ∧
        aspathLength row.asPath = path.numbers.length ∧
        ∀ n, path.numbers.head? = some n →
          (getAdvertisedAs row.asPath = some (toString n) ↔ path.Plain n) := by
  have hrib : (if state = some "down" then peer.sessionDown else peer).inputRib =
      if state = some "down" then [] else peer.inputRib := by
    split_ifs <;> rfl
  refine ⟨_, _, announce.items.map fun kv => writtenRow a kv.1 kv.2,
    peer.update_announces hip state a announce withdraw notification, ?_, ?_, ?_⟩
  · exact congrArg (· ++ _) hrib
  · rw [List.map_map]
    exact List.map_id _
  · intro row hrow
    obtain ⟨kv, -, rfl⟩ := List.mem_map.mp hrow
    have htext : (writtenRow a kv.1 kv.2).asPath = asPathText path.items := by
      rw [writtenRow, ha, Option.getD_some]
    rw [htext]
    exact ⟨path.recovers_iff, path.aspathLength_items, fun n hn => path.getAdvertisedAs_items hn⟩

/-- The rows an update stores give back the numbers of the path in order, since an AS number has
at most four octets. -/
theorem update_recovers {path : AsPath} (hpath : path.Packed) {a : Attribute}
    (ha : a.asPath = some path.items) {peer : Peer} {ip : String} (hip : ip ∈ peer.ips)
    (state : Option String) (announce : Dict String String) (withdraw : Option (Families Unit))
    (notification : Option String) :
    ∃ peer' items rows, peer.update ⟨some ⟨some ip, state,
        some ⟨some a, some ⟨some announce⟩, withdraw⟩⟩, notification⟩ = some (peer', items) ∧
      peer'.inputRib = (if state = some "down" then [] else peer.inputRib) ++ rows ∧
      rows.map (fun r => (r.pfx, r.nextHop)) = announce.items ∧
      ∀ row ∈ rows, splitWords row.asPath = path.numbers.map toString ∧
        aspathLength row.asPath = path.numbers.length ∧
        ∀ n, path.numbers.head? = some n → getAdvertisedAs row.asPath = some (toString n) := by
  obtain ⟨peer', items, rows, hupdate, hrib, hprefixes, hrows⟩ :=
    update_asPath path ha hip state announce withdraw notification
  refine ⟨peer', items, rows, hupdate, hrib, hprefixes, fun row hrow => ?_⟩
  have hback : Recovers row.asPath path.numbers := (hrows row hrow).1.mpr hpath.plain
  exact ⟨hback.words, hback.length, hback.advertised⟩

def announcePath (path : AsPath) : Announcement :=
  ⟨⟨some "igp", some path.items, some 0, some false⟩, .single "10.0.0.0/8" "172.0.0.1"⟩

theorem update_recovers_sequence : ∃ peer' items rows, (Peer.init ["172.0.0.1"]).update
      ((announcePath (.segments [100, 4200000000] [7])).message "172.0.0.1") =
        some (peer', items) ∧
    peer'.inputRib = rows ∧
    rows.map (fun r => (r.pfx, r.nextHop)) = [("10.0.0.0/8", "172.0.0.1")] ∧
    ∀ row ∈ rows, splitWords row.asPath = ["100", "4200000000", "7"] ∧
      aspathLength row.asPath = 3 ∧
      ∀ n, some 100 = some n → getAdvertisedAs row.asPath = some (toString n) :=
  have hpath : (AsPath.segments [100, 4200000000] [7]).Packed := by
    intro n hn
    simp only [List.cons_append, List.nil_append, List.mem_cons, List.not_mem_nil, or_false] at hn
    omega
  update_recovers hpath rfl (List.mem_singleton_self _) none
    (.single "10.0.0.0/8" "172.0.0.1") none none

end Hispar.Bgp
