import Hispar.Bgp.AsPaths
import Hispar.Bgp.Commands
import Hispar.Exabgp.Store

/-!
# Commands as they are read

A line is cleaned, split at the blanks and read as a prefix with its attributes. What
other attributes a command may have, and addresses of the other family, are parameters.
-/
namespace Hispar.Exabgp
open Library Bgp

abbrev Packed := List ℕ

inductive SAFI where
  | unicast
  | multicast
  | nlriMpls
  | mplsVpn
  deriving DecidableEq

/-- An exception that nothing on the way catches. -/
inductive Failure where
  | socketError
  | keyError
  | overflowError
  deriving DecidableEq

structure NLRI where
  ipv6 : Bool
  safi : SAFI
  packed : Packed
  mask : ℕ
  nexthop : Option Packed
  action : OUT
  deriving DecidableEq

structure Attributes (β : Type*) where
  nextHop : Option Packed
  asPath : Option (List ℤ × List ℤ)
  extra : β
  deriving DecidableEq

structure RouteChange (β : Type*) where
  nlri : NLRI
  attributes : Attributes β
  deriving DecidableEq

def pyInt (value : String) : Option ℤ :=
  match (strip value).toList with
  | '-' :: text => (digits 10 text).map fun n => -(n : ℤ)
  | '+' :: text => (digits 10 text).map fun n => (n : ℤ)
  | text => (digits 10 text).map fun n => (n : ℤ)

def decimalOctet : List Char → Option ℕ
  | '0' :: _ :: _ => none
  | text => (digits 10 text).filter (· < 256)

def inetPton4 (ip : String) : Option Packed :=
  ((ip.toList.splitOn '.').mapM decimalOctet).filter fun packed => packed.length = 4

def detectSafi (ip : String) : Option SAFI :=
  if '.' ∈ ip.toList then
    ((split "." ip).head?.bind pyInt).map fun n => if 224 ≤ n ∧ n < 240 then .multicast else .unicast
  else some .unicast

def maskToBytes (mask : ℕ) : ℕ := (mask + 7) / 8

def newASN (value : String) : Option ℤ :=
  if '.' ∈ value.toList then
    (pyInt (String.ofList (value.toList.takeWhile (· ≠ '.')))).bind fun high =>
      (pyInt (String.ofList ((value.toList.dropWhile (· ≠ '.')).drop 1))).map fun low =>
        high * 2 ^ 16 + low
  else pyInt value

def cleaned (line : String) : String :=
  let newLine := replaceChar '(' ['(', ' '] (replaceChar ')' [' ', ')'] (replaceChar '[' ['[', ' ']
    (replaceChar ']' [' ', ']'] (replaceChar '\t' [' '] (strip line).toList))))
  String.ofList (squeezeAll newLine.length newLine)

section parser
variable {β : Type*} (pton6 : String → Option Packed) (extra : β)
  (other : String → List String → RouteChange β → Except Failure (Option (ℕ × RouteChange β)))

def pton (ip : String) : Option Packed := if ':' ∈ ip.toList then pton6 ip else inetPton4 ip

def addressAndMask (token : String) : String × ℤ :=
  match split "/" token with
  | [ip, mask] => (ip, (pyInt mask).getD 32)
  | _ => (token, 32)

/-- `_insert_static_route`: `none` where it returns `False`. -/
def insertStaticRoute (token : String) : Except Failure (Option (RouteChange β)) :=
  let (ip, mask) := addressAndMask token
  match detectSafi ip with
  | none => .ok none
  | some safi =>
    match pton pton6 ip with
    | none => .error .socketError
    | some packed =>
      -- `chr(mask)`, and then the dictionary
      if mask < -2 ^ 63 ∨ 2 ^ 63 ≤ mask then .error .overflowError
      else if mask < 0 ∨ 255 < mask then .ok none
      else if 128 < mask then .error .keyError
      else if packed.length < maskToBytes mask.toNat then .ok none
      else .ok (some ⟨⟨decide (':' ∈ ip.toList), safi, packed, mask.toNat, none, .announce⟩,
        ⟨none, none, extra⟩⟩)

/-- `_route_next_hop`, where nothing gets out of the `except`. -/
def routeNextHop (nexthopself : Option Packed) (ip : String) (route : RouteChange β) :
    Option (RouteChange β) :=
  if route.attributes.nextHop.isSome then none
  else (if ip.toList.map Char.toLower = "self".toList then nexthopself else pton pton6 ip).map fun nh =>
    { route with
      nlri := { route.nlri with nexthop := some nh }
      attributes :=
        if route.nlri.ipv6 = false ∧ (route.nlri.safi = .unicast ∨ route.nlri.safi = .multicast) then
          { route.attributes with nextHop := some nh }
        else route.attributes }

/-- The tokens of a path up to its end: between round brackets are those of the set. -/
def aspathTokens : Bool → List String → List ℤ → List ℤ → Option ((List ℤ × List ℤ) × List String)
  | _, [], _, _ => none
  | true, asn :: tokens, asSeq, asSet =>
    if asn = ")" then aspathTokens false tokens asSeq asSet
    else (newASN asn).bind fun n => aspathTokens true tokens asSeq (asSet ++ [n])
  | false, asn :: tokens, asSeq, asSet =>
    if asn = "(" then aspathTokens true tokens asSeq asSet
    else if asn = ")" then aspathTokens false tokens asSeq asSet
    else if asn = "]" then some ((asSeq, asSet), tokens)
    else (newASN asn).bind fun n => aspathTokens false tokens (asSeq ++ [n]) asSet

def routeAspath (asn : String) (tokens : List String) (route : RouteChange β) :
    Option (RouteChange β × List String) :=
  (if asn = "[" then aspathTokens false tokens [] []
    else (newASN asn).map fun n => (([n], []), tokens)).map fun r =>
      ({ route with attributes := { route.attributes with asPath := some r.1 } }, r.2)

/-- The commands of a route, with the number of turns the loop may take. -/
def routeCommands (nexthopself : Option Packed) :
    ℕ → List String → RouteChange β → Except Failure (Option (RouteChange β))
  | _, [], route => .ok (some route)
  | 0, _ :: _, _ => .ok none
  | n + 1, command :: tokens, route =>
    if command = "next-hop" ∨ command = "as-path" ∨ command = "as-sequence" then
      match tokens with
      | [] => .ok none
      | token :: rest =>
        match (if command = "next-hop" then
            (routeNextHop pton6 nexthopself token route).map fun route => (route, rest)
          else routeAspath token rest route) with
        | none => .ok none
        | some (route, rest) => routeCommands nexthopself n rest route
    else if tokens = [] ∧ command ≠ "withdraw" then .ok none
    else (other command tokens route).bind fun
      | none => .ok none
      | some (popped, route) => routeCommands nexthopself n (tokens.drop popped) route

def singleStaticRoute (nexthopself : Option Packed) (tokens : List String) :
    Except Failure (Option (RouteChange β)) :=
  match tokens with
  | token :: rest =>
    if tokens.length < 3 then .ok none
    else (insertStaticRoute pton6 extra token).bind fun
      | none => .ok none
      | some route => (routeCommands pton6 other nexthopself rest.length rest route).map fun route =>
        route.filter fun route => route.nlri.nexthop.isSome
  | [] => .ok none

def withAction (action : OUT) (route : RouteChange β) : RouteChange β :=
  if action = .withdraw then { route with nlri := { route.nlri with action := .withdraw } } else route

def selfChanges (tokens : List String) (action : OUT) :
    List (String × Packed) → Except Failure (Option (List (String × RouteChange β)))
  | [] => .ok (some [])
  | p :: peers => (singleStaticRoute pton6 extra other (some p.2) tokens).bind fun
    | none => .ok none
    | some route => (selfChanges tokens action peers).map fun changes =>
      changes.map ((p.1, withAction action route) :: ·)

/-- `parse_api_route`: the neighbors are given with their local addresses, in the order in which
the dictionary lists them. -/
def parseApiRoute (command : String) (peers : List (String × Packed)) (action : OUT) :
    Except Failure (Option (List (String × RouteChange β))) :=
  let tokens := (split " " (cleaned command)).drop 1
  if tokens.length < 4 then .ok none
  else if tokens.head? ≠ some "route" then .ok none
  else if Contains "self" command then selfChanges pton6 extra other tokens.tail action peers
  else (singleStaticRoute pton6 extra other none tokens.tail).map fun route =>
    route.map fun route => peers.map fun p => (p.1, withAction action route)

end parser

def IsTokenChar (c : Char) : Prop := isAsciiSpace c = false ∧ c ∉ ['[', ']', '(', ')']

def IsToken (w : List Char) : Prop := w ≠ [] ∧ ∀ c ∈ w, IsTokenChar c

theorem IsTokenChar.ne_blank {c : Char} (h : IsTokenChar c) : decide (c = ' ') = false := by
  refine decide_eq_false fun hc => ?_
  rw [hc] at h
  exact absurd h.1 (by decide)

theorem words_token {w : List Char} (h : IsToken w) : words (fun c => c = ' ') w = [w] :=
  words_of_forall h.1 fun c hc => (h.2 c hc).ne_blank

theorem words_token_append {w : List Char} (h : IsToken w) (l : List Char) :
    words (fun c => c = ' ') (w ++ ' ' :: l) = w :: words (fun c => c = ' ') l := by
  rw [words_append_cons (by decide), words_token h]
  rfl

theorem notMem_of_tokens {l : List Char} (h : ∀ c ∈ l, IsTokenChar c ∨ c = ' ') {d : Char}
    (hd : d = '\t' ∨ d ∈ ['[', ']', '(', ')']) : d ∉ l := by
  intro hmem
  rcases h d hmem with htoken | rfl
  · rcases hd with rfl | hd
    · exact absurd htoken.1 (by decide)
    · exact htoken.2 hd
  · rcases hd with hd | hd
    · exact absurd hd (by decide)
    · exact absurd hd (by decide)

theorem split_cleaned {l m : List Char} (hl : ∀ c ∈ l, IsTokenChar c ∨ c = ' ')
    (hm : ∀ c ∈ m, IsTokenChar c ∨ c = ' ') (hhead : ∀ c ∈ l.head?, IsTokenChar c) (hne : l ≠ []) :
    split " " (cleaned (String.ofList (l ++ '[' :: (m ++ [']'])))) =
      (words (fun c => c = ' ') (l ++ '[' :: ' ' :: (m ++ ' ' :: [']']))).map String.ofList := by
  have hstrip : strip (String.ofList (l ++ '[' :: (m ++ [']']))) =
      String.ofList (l ++ '[' :: (m ++ [']'])) := by
    apply strip_of_ends
    · intro c hc
      rw [String.toList_ofList, List.head?_append_of_ne_nil l hne] at hc
      exact (hhead c hc).1
    · intro c hc
      simp only [String.toList_ofList, List.getLast?_append, List.getLast?_cons, List.getLast?_nil, Option.getD_none,
        Option.some_or, Option.getD_some, Option.mem_def, Option.some.injEq] at hc
      rw [← hc]
      rfl
  have hspaced : replaceChar '(' ['(', ' '] (replaceChar ')' [' ', ')'] (replaceChar '[' ['[', ' ']
      (replaceChar ']' [' ', ']'] (replaceChar '\t' [' '] (l ++ '[' :: (m ++ [']'])))))) =
      l ++ '[' :: ' ' :: (m ++ ' ' :: [']']) := by
    have hkept : ∀ (d : Char) (new : List Char), (d = '\t' ∨ d ∈ ['[', ']', '(', ')']) →
        replaceChar d new l = l ∧ replaceChar d new m = m := fun d new hd =>
      ⟨replaceChar_of_notMem (notMem_of_tokens hl hd), replaceChar_of_notMem (notMem_of_tokens hm hd)⟩
    have hcons : ∀ (d c : Char) (new s : List Char), replaceChar d new (c :: s) =
        (if c = d then new else [c]) ++ replaceChar d new s := fun _ _ _ _ => rfl
    have hnil : ∀ (d : Char) (new : List Char), replaceChar d new [] = [] := fun _ _ => rfl
    simp [replaceChar_append, hcons, hnil, hkept]
  have hlast : (l ++ '[' :: ' ' :: (m ++ ' ' :: [']'])).getLast? = some ']' := by
    simp [List.getLast?_cons]
  have hfirst : (l ++ '[' :: ' ' :: (m ++ ' ' :: [']'])).head? = l.head? :=
    List.head?_append_of_ne_nil l hne
  obtain ⟨hfix, hsqueezed, hend, hwords⟩ :=
    squeezeAll_spec (le_refl (l ++ '[' :: ' ' :: (m ++ ' ' :: [']'])).length)
  simp only [split, cleaned, hstrip, String.toList_ofList, hspaced]
  refine congrArg (List.map String.ofList) ((splitFrom_of_squeezed ?_ hfix ?_ ?_).trans hwords)
  · intro hnil
    rw [hnil, hlast] at hend
    exact absurd hend (by simp)
  · rw [hsqueezed, hfirst]
    intro hblank
    exact absurd (hhead ' ' hblank).1 (by decide)
  · rw [hend, hlast]
    decide

end Hispar.Exabgp
