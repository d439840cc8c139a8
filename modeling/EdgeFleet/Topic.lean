/-! # Topics and connections

Agents report on one common topic. The controller answers each agent on a control topic, which
carries acknowledgements, and on a data topic, which carries workload commands.
-/

namespace EdgeFleet.Topic

/-- Where agents report to the controller. -/
def heartbeat : String := "heartbeat"

/-- A topic of one agent. -/
inductive Channel where
  | control (agent : String)
  | data (agent : String)
  deriving DecidableEq

/-- The topic that carries the acknowledgements of an agent. -/
def control (agent : String) : String := "ctl/" ++ agent

/-- The topic that carries the commands of an agent. -/
def data (agent : String) : String := "data/" ++ agent

/-- What stands before the first slash and what stands behind it. -/
def splitSlash? : List Char → Option (List Char × List Char)
  | [] => none
  | '/' :: cs => some ([], cs)
  | c :: cs => (splitSlash? cs).map fun (front, back) => (c :: front, back)

/-- The channel that a topic names. The agent's name is all that follows the first slash. -/
def parse? (topic : String) : Option Channel :=
  match splitSlash? topic.toList with
  | none | some (_, []) => none
  | some (front, name) =>
    if front = ['c', 't', 'l'] then some (.control (String.ofList name))
    else if front = ['d', 'a', 't', 'a'] then some (.data (String.ofList name))
    else none

end EdgeFleet.Topic

namespace EdgeFleet

/-! ## Connections to the broker -/

/-- How a client connects to the broker. -/
structure BrokerOptions where
  host : String
  port : UInt16
  clientId : String
  /-- Seconds of silence after which the client shows that it is alive. -/
  keepAlive : UInt64
  /-- Whether the broker forgets what it knew of the client. -/
  isClean : Bool
  deriving DecidableEq

/-- A connection that starts afresh. -/
def BrokerOptions.fresh (host : String) (port : UInt16) (clientId : String) (keepAlive : UInt64) :
    BrokerOptions :=
  ⟨host, port, clientId, keepAlive, true⟩

end EdgeFleet
