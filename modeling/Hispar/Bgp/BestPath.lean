import Hispar.Bgp.Rib
import Hispar.Library.Runs

/-!
# Selection of the best path

The shortest AS paths, among those of one neighbouring AS the lowest MED, and
of what is left the lowest next hop. Addresses are read as `inet_aton` reads
them and written as `inet_ntoa` writes them, so the last step finds a row only
where the text of its next hop is the canonical one.
-/
namespace Hispar.Bgp

def isSpace (c : Char) : Bool :=
  c.toNat ∈ [9, 10, 11, 12, 13, 28, 29, 30, 31, 32, 133, 160, 5760, 6158, 8232, 8233, 8239, 8287,
    12288] || (8192 ≤ c.toNat && c.toNat ≤ 8202)

def splitWords (text : String) : List String :=
  ((text.toList.splitOnP isSpace).filter (· ≠ [])).map String.ofList

def aspathLength (asPath : String) : ℕ := (splitWords asPath).length

def getAdvertisedAs (asPath : String) : Option String := (splitWords asPath).head?

def digitValue (c : Char) : ℕ :=
  if '0' ≤ c ∧ c ≤ '9' then c.toNat - 48
  else if 'a' ≤ c ∧ c ≤ 'f' then c.toNat - 87
  else if 'A' ≤ c ∧ c ≤ 'F' then c.toNat - 55
  else 16

def digits (base : ℕ) (text : List Char) : Option ℕ :=
  if !text.isEmpty && text.all (digitValue · < base) then
    some (text.foldl (fun n c => base * n + digitValue c) 0)
  else none

/-- A component of an address: hexadecimal, octal or decimal. -/
def component : List Char → Option ℕ
  | '0' :: 'x' :: text => digits 16 text
  | '0' :: 'X' :: text => digits 16 text
  | '0' :: text => digits 8 ('0' :: text)
  | text => digits 10 text

/-- `inet_aton`: one to four components, of which the last fills what is left of the address. -/
def ipToLong (ip : String) : Option ℕ :=
  ((ip.toList.splitOn '.').mapM component).bind fun
    | [a] => if a < 2 ^ 32 then some a else none
    | [a, b] => if a < 256 ∧ b < 2 ^ 24 then some (a * 2 ^ 24 + b) else none
    | [a, b, c] => if a < 256 ∧ b < 256 ∧ c < 2 ^ 16 then some (a * 2 ^ 24 + b * 2 ^ 16 + c)
        else none
    | [a, b, c, d] => if a < 256 ∧ b < 256 ∧ c < 256 ∧ d < 256 then
        some (a * 2 ^ 24 + b * 2 ^ 16 + c * 2 ^ 8 + d) else none
    | _ => none

def octets (n : ℕ) : List ℕ :=
  [n / 2 ^ 24 % 256, n / 2 ^ 16 % 256, n / 2 ^ 8 % 256, n % 256]

def longToIp (n : ℕ) : String :=
  String.ofList (['.'].intercalate ((octets n).map fun k => (toString k).toList))

def Canonical (ip : String) : Prop := ∃ n < 2 ^ 32, ip = longToIp n

theorem component_toString {k : ℕ} (hk : k < 256) :
    component (toString k).toList = some k ∧ '.' ∉ (toString k).toList := by
  have hall : ∀ k < 256, component (Nat.toDigits 10 k) = some k ∧ '.' ∉ Nat.toDigits 10 k := by
    decide +kernel
  simpa only [Nat.toString_eq_repr, Nat.toList_repr] using hall k hk

theorem ipToLong_longToIp {n : ℕ} (hn : n < 2 ^ 32) : ipToLong (longToIp n) = some n := by
  have hoctet : ∀ k ∈ octets n, k < 256 := by
    intro k hk
    simp only [octets, List.mem_cons, List.not_mem_nil, or_false] at hk
    omega
  have hsplit : (longToIp n).toList.splitOn '.' = (octets n).map fun k => (toString k).toList := by
    rw [longToIp, String.toList_ofList]
    apply List.splitOn_intercalate
    · intro l hl
      obtain ⟨k, hk, rfl⟩ := List.mem_map.mp hl
      exact (component_toString (hoctet k hk)).2
    · simp [octets]
  have hmap : ((octets n).map fun k => (toString k).toList).mapM component = some (octets n) := by
    rw [List.mapM_map]
    exact (Library.Runs.mapM_eq_map fun k hk => (component_toString (hoctet k hk)).1).trans
      (by rw [List.map_id'])
  rw [ipToLong, hsplit, hmap, Option.bind_some]
  have hlt : ∀ m, m % 256 < 256 := fun m => Nat.mod_lt m (by norm_num)
  simp only [octets, hlt, and_self, if_true, Option.some.injEq]
  omega

def shorter (acc : List Row × ℕ) (route : Row) : List Row × ℕ :=
  if acc.1.isEmpty then ([route], aspathLength route.asPath)
  else if acc.2 = aspathLength route.asPath then (acc.1 ++ [route], acc.2)
  else if acc.2 > aspathLength route.asPath then ([route], aspathLength route.asPath)
  else acc

def shortestPaths (routes : List Row) : List Row := (routes.foldl shorter ([], 0)).1

def lowestMed (r : Row) (rest : List Row) : Med :=
  rest.foldl (fun lowest x => if lowest.gt x.med then x.med else lowest) r.med

def fromAs (best : List Row) (a : String) : List Row :=
  best.filter fun x => getAdvertisedAs x.asPath = some a

def withLowestMed : List Row → Option (List Row)
  | [] => none
  | r :: rest => some ((r :: rest).filter fun x => x.med = lowestMed r rest)

def keepMed (best : List Row) (asList : List String) (a : String) : Option (List Row) :=
  if 1 < asList.count a then withLowestMed (fromAs best a) else some (fromAs best a)

/-- The second loop, with the number of turns it may take. -/
def postMedLoop (best : List Row) (asList : List String) : ℕ → ℕ → List Row → Option (List Row)
  | 0, i, post => if i < asList.length then none else some post
  | n + 1, i, post =>
    match asList[i]? with
    | none => some post
    | some a => (keepMed best asList a).bind fun kept =>
      postMedLoop best asList n (if 1 < asList.count a then i + asList.count a else i + 1)
        (post ++ kept)

def postMed (best : List Row) : Option (List Row) :=
  (best.mapM fun route => getAdvertisedAs route.asPath).bind fun ases =>
    let asList := ases.insertionSort (· ≤ ·)
    postMedLoop best asList asList.length 0 []

def lowestRouter (post : List Row) : Option Row :=
  (post.mapM fun route => ipToLong route.nextHop).bind fun
    | [] => none
    | first :: rest =>
      let lowest := rest.foldl (fun lowest ip => if lowest > ip then ip else lowest) first
      post.find? fun route => route.nextHop = longToIp lowest

def bestPathSelection (routes : List Row) : Option Row :=
  let best := shortestPaths routes
  if best.length = 1 then best.getLast?
  else (postMed best).bind fun post =>
    if post.length = 1 then post.getLast? else lowestRouter post

theorem mem_shortestPaths {routes : List Row} {r : Row} (hr : r ∈ shortestPaths routes) :
    r ∈ routes := by
  suffices hgen : ∀ (routes : List Row) (acc : List Row × ℕ),
      r ∈ (routes.foldl shorter acc).1 → r ∈ acc.1 ∨ r ∈ routes by
    exact (hgen routes ([], 0) hr).resolve_left List.not_mem_nil
  intro routes
  induction routes with
  | nil => exact fun acc h => Or.inl h
  | cons route routes ih =>
    intro acc h
    rw [List.foldl_cons] at h
    rcases ih _ h with h | h
    · have hacc : r ∈ acc.1 ∨ r = route := by
        rw [shorter] at h
        split_ifs at h
        · exact Or.inr (List.mem_singleton.mp h)
        · simpa using h
        · exact Or.inr (List.mem_singleton.mp h)
        · exact Or.inl h
      rw [List.mem_cons, ← or_assoc]
      exact Or.inl hacc
    · exact Or.inr (List.mem_cons_of_mem _ h)

theorem shortestPaths_ne_nil {routes : List Row} (h : routes ≠ []) : shortestPaths routes ≠ [] := by
  suffices hgen : ∀ (routes : List Row) (acc : List Row × ℕ), acc.1 ≠ [] →
      (routes.foldl shorter acc).1 ≠ [] by
    cases routes with
    | nil => exact absurd rfl h
    | cons route routes => exact hgen routes _ (by simp [shorter])
  intro routes
  induction routes with
  | nil => exact fun _ h => h
  | cons route routes ih =>
    intro acc h
    rw [List.foldl_cons]
    apply ih
    rw [shorter]
    split_ifs <;> simp_all

theorem withLowestMed_subset {l kept : List Row} (h : withLowestMed l = some kept) : kept ⊆ l := by
  cases l with
  | nil => cases h
  | cons r rest => exact Option.some.inj h ▸ List.filter_subset_self _

theorem mem_keepMed {best : List Row} {asList : List String} {a : String} {kept : List Row}
    (h : keepMed best asList a = some kept) {r : Row} (hr : r ∈ kept) : r ∈ best := by
  have hfrom : r ∈ fromAs best a := by
    rw [keepMed] at h
    split_ifs at h
    · exact withLowestMed_subset h hr
    · exact Option.some.inj h ▸ hr
  exact (List.mem_filter.mp hfrom).1

theorem mem_postMedLoop {best : List Row} {asList : List String} {n i : ℕ} {post post' : List Row}
    (h : postMedLoop best asList n i post = some post') {r : Row} (hr : r ∈ post') :
    r ∈ post ∨ r ∈ best := by
  induction n generalizing i post with
  | zero =>
    rw [postMedLoop] at h
    split_ifs at h
    exact Or.inl (Option.some.inj h ▸ hr)
  | succ n ih =>
    rw [postMedLoop] at h
    split at h
    · exact Or.inl (Option.some.inj h ▸ hr)
    · obtain ⟨kept, hkept, h⟩ := Option.bind_eq_some_iff.mp h
      rcases ih h with hr | hr
      · exact (List.mem_append.mp hr).imp_right (mem_keepMed hkept)
      · exact Or.inr hr

theorem mem_postMed {best post : List Row} (h : postMed best = some post) {r : Row} (hr : r ∈ post) :
    r ∈ best := by
  obtain ⟨ases, -, h⟩ := Option.bind_eq_some_iff.mp h
  exact (mem_postMedLoop h hr).resolve_left List.not_mem_nil

theorem mem_lowestRouter {post : List Row} {r : Row} (h : lowestRouter post = some r) :
    r ∈ post := by
  obtain ⟨ips, -, h⟩ := Option.bind_eq_some_iff.mp h
  split at h
  · cases h
  · exact List.mem_of_find?_eq_some h

theorem mem_of_bestPathSelection {routes : List Row} {r : Row}
    (h : bestPathSelection routes = some r) : r ∈ routes := by
  apply mem_shortestPaths
  simp only [bestPathSelection] at h
  split_ifs at h
  · exact List.mem_of_getLast? h
  · obtain ⟨post, hpost, h⟩ := Option.bind_eq_some_iff.mp h
    apply mem_postMed hpost
    split_ifs at h
    · exact List.mem_of_getLast? h
    · exact mem_lowestRouter h

theorem ne_nil_of_bestPathSelection {routes : List Row} {r : Row}
    (h : bestPathSelection routes = some r) : routes ≠ [] :=
  List.ne_nil_of_mem (mem_of_bestPathSelection h)

structure Comparable (r : Row) : Prop where
  asPath : splitWords r.asPath ≠ []
  nextHop : Canonical r.nextHop

theorem Comparable.advertised {r : Row} (h : Comparable r) :
    ∃ a, getAdvertisedAs r.asPath = some a := by
  obtain ⟨a, l, hl⟩ := List.exists_cons_of_ne_nil h.asPath
  exact ⟨a, by rw [getAdvertisedAs, hl, List.head?_cons]⟩

theorem Comparable.address {r : Row} (h : Comparable r) :
    ∃ n, ipToLong r.nextHop = some n ∧ r.nextHop = longToIp n := by
  obtain ⟨n, hn, hr⟩ := h.nextHop
  exact ⟨n, hr ▸ ipToLong_longToIp hn, hr⟩

theorem withLowestMed_total {l : List Row} (h : l ≠ []) :
    ∃ kept, withLowestMed l = some kept ∧ kept ≠ [] := by
  obtain ⟨r, rest, rfl⟩ := List.exists_cons_of_ne_nil h
  refine ⟨_, rfl, ?_⟩
  obtain ⟨x, hx, hmed⟩ : ∃ x ∈ r :: rest, x.med = lowestMed r rest :=
    List.mem_map.mp (Library.Runs.foldl_candidate_mem _ Row.med rest r.med)
  exact List.ne_nil_of_mem (List.mem_filter.mpr ⟨hx, decide_eq_true hmed⟩)

theorem keepMed_total {best : List Row} (asList : List String) {r : Row} (hr : r ∈ best) {a : String}
    (ha : getAdvertisedAs r.asPath = some a) :
    ∃ kept, keepMed best asList a = some kept ∧ kept ≠ [] := by
  have hfrom : fromAs best a ≠ [] :=
    List.ne_nil_of_mem (List.mem_filter.mpr ⟨hr, decide_eq_true ha⟩)
  rw [keepMed]
  split_ifs
  · exact withLowestMed_total hfrom
  · exact ⟨_, rfl, hfrom⟩

theorem postMedLoop_total {best : List Row} {asList : List String}
    (hkeep : ∀ a ∈ asList, ∃ kept, keepMed best asList a = some kept ∧ kept ≠ []) {n i : ℕ}
    (hn : asList.length ≤ n + i) {post : List Row} (hpost : post ≠ [] ∨ i < asList.length) :
    ∃ post', postMedLoop best asList n i post = some post' ∧ post' ≠ [] := by
  induction n generalizing i post with
  | zero =>
    have hi : ¬ i < asList.length := by omega
    exact ⟨post, by rw [postMedLoop, if_neg hi], hpost.resolve_right hi⟩
  | succ n ih =>
    by_cases hi : i < asList.length
    · obtain ⟨kept, hkept, hne⟩ := hkeep asList[i] (List.getElem_mem hi)
      rw [postMedLoop, List.getElem?_eq_getElem hi]
      simp only [hkept, Option.bind_some]
      apply ih
      · split_ifs <;> omega
      · exact Or.inl (List.append_ne_nil_of_right_ne_nil post hne)
    · refine ⟨post, ?_, hpost.resolve_right hi⟩
      rw [postMedLoop, List.getElem?_eq_none (Nat.le_of_not_lt hi)]

theorem postMed_total {best : List Row} (hne : best ≠ []) (hbest : ∀ r ∈ best, Comparable r) :
    ∃ post, postMed best = some post ∧ post ≠ [] := by
  have hmap : best.mapM (fun r => getAdvertisedAs r.asPath) =
      some (best.map fun r => (getAdvertisedAs r.asPath).getD "") := by
    apply Library.Runs.mapM_eq_map
    intro r hr
    obtain ⟨a, ha⟩ := (hbest r hr).advertised
    rw [ha, Option.getD_some]
  rw [postMed, hmap, Option.bind_some]
  apply postMedLoop_total
  · intro a ha
    rw [List.mem_insertionSort] at ha
    obtain ⟨r, hr, rfl⟩ := List.mem_map.mp ha
    obtain ⟨a, ha⟩ := (hbest r hr).advertised
    rw [ha, Option.getD_some]
    exact keepMed_total _ hr ha
  · exact Nat.le_add_right _ _
  · right
    rw [List.length_insertionSort, List.length_map]
    exact List.length_pos_of_ne_nil hne

theorem lowestRouter_total {post : List Row} (hne : post ≠ []) (hpost : ∀ r ∈ post, Comparable r) :
    ∃ r, lowestRouter post = some r := by
  have hmap : post.mapM (fun r => ipToLong r.nextHop) =
      some (post.map fun r => (ipToLong r.nextHop).getD 0) := by
    apply Library.Runs.mapM_eq_map
    intro r hr
    obtain ⟨n, hn, -⟩ := (hpost r hr).address
    rw [hn, Option.getD_some]
  obtain ⟨first, rest, rfl⟩ := List.exists_cons_of_ne_nil hne
  rw [lowestRouter, hmap, Option.bind_some]
  simp only [List.map_cons]
  generalize hlow : (rest.map fun r => (ipToLong r.nextHop).getD 0).foldl
    (fun lowest ip => if lowest > ip then ip else lowest) ((ipToLong first.nextHop).getD 0) = lowest
  -- the lowest address is that of a route, whose text is the canonical one
  have hmem : lowest ∈ (first :: rest).map fun r => (ipToLong r.nextHop).getD 0 := by
    have h := Library.Runs.foldl_candidate_mem (fun lowest ip : ℕ => lowest > ip) id
      (rest.map fun r => (ipToLong r.nextHop).getD 0) ((ipToLong first.nextHop).getD 0)
    simpa only [id_eq, hlow, List.map_id, List.map_cons] using h
  obtain ⟨r, hr, rfl⟩ := List.mem_map.mp hmem
  obtain ⟨n, hn, htext⟩ := (hpost r hr).address
  rw [← Option.isSome_iff_exists, List.find?_isSome]
  exact ⟨r, hr, by simp [hn, ← htext]⟩

theorem bestPathSelection_total {routes : List Row} (hne : routes ≠ [])
    (hroutes : ∀ r ∈ routes, Comparable r) : ∃ r, bestPathSelection routes = some r := by
  have hbest := shortestPaths_ne_nil hne
  have hlast : ∀ {l : List Row}, l.length = 1 → ∃ r, l.getLast? = some r := fun h =>
    ⟨_, List.getLast?_eq_getLast_of_ne_nil (List.ne_nil_of_length_pos (by omega))⟩
  simp only [bestPathSelection]
  split_ifs with h₁
  · exact hlast h₁
  · obtain ⟨post, hpost, hpne⟩ := postMed_total hbest fun r hr => hroutes r (mem_shortestPaths hr)
    rw [hpost, Option.bind_some]
    split_ifs with h₂
    · exact hlast h₂
    · exact lowestRouter_total hpne fun r hr => hroutes r (mem_shortestPaths (mem_postMed hpost hr))

end Hispar.Bgp
