import EdgeFleet.Node

/-! # Network interfaces

Interfaces are told apart by their names. Case does not matter; two letters beyond ASCII have lower
cases within it.
-/

namespace EdgeFleet

/-- The kinds of interfaces, in the order in which their addresses are given. -/
inductive InterfaceKind where
  | ethernet | wireless | other | loopback
  deriving DecidableEq

structure Interface where
  name : String
  ip : String
  deriving DecidableEq

namespace InterfaceKind

def name : InterfaceKind → String
  | ethernet => "Ethernet"
  | wireless => "Wireless"
  | other => "Other"
  | loopback => "Loopback"

def rank : InterfaceKind → Nat
  | ethernet => 0
  | wireless => 1
  | other => 2
  | loopback => 3

/-- The lower case of a character as far as ASCII letters are concerned: the Kelvin sign is a `k`,
and the dotted capital I an `i` with a dot above. -/
def lower (c : Char) : List Char :=
  if c = '\u212A' then ['k']
  else if c = '\u0130' then ['i', '\u0307']
  else [c.toLower]

def startsWith (front cs : List Char) : Bool := front.isPrefixOf cs

def contains (part : List Char) : List Char → Bool
  | [] => part.isEmpty
  | c :: cs => startsWith part (c :: cs) || contains part cs

def ofName (name : String) : InterfaceKind :=
  let cs := name.toList.flatMap lower
  if cs = "lo".toList ∨ startsWith "lo0".toList cs ∨ contains "loopback".toList cs then loopback
  else if ["wlan", "wifi", "wlp", "wlo"].any fun part => contains part.toList cs then wireless
  else if startsWith "eth".toList cs ∨ startsWith "en".toList cs then ethernet
  else other

end InterfaceKind

namespace Interface

def kind (i : Interface) : InterfaceKind := .ofName i.name

/-- By kind; interfaces of one kind stay in their order. -/
def sort (is : List Interface) : List Interface :=
  is.mergeSort fun a b => a.kind.rank ≤ b.kind.rank

/-- The address of each interface, and the name of the host at the end. -/
def addresses (is : List Interface) (host : String) : List Address :=
  is.map (fun i => ⟨i.ip, .internalIp⟩) ++ [⟨host, .hostName⟩]

end Interface

end EdgeFleet
