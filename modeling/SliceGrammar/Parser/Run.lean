import SliceGrammar.Parser.Basic
/-! Parsing whole inputs. A run brackets what the parser reports and adds the verdict before it closes
the bracket; several inputs are run one after the other and their logs stand in that order. -/
namespace SliceGrammar.Parser

variable {α : Type}

def verdict : Outcome α → Event
  | .success _ tail => .succeeded tail.offset
  | .failure _ => .failed

def bracketed (label : Option String) (length : Nat) (body : Log) (outcome : Outcome α) : Log :=
  [.opened label length,.entered] ++ body ++ [.event (verdict outcome),.left]

def run (p : Parser α) (source : Bytes) (label : Option String) : Option (Reply α) :=
  (p (.start source label)).map
    (fun r => ⟨bracketed label source.length r.log r.outcome,r.outcome⟩)

def runEach (p : Parser α) (label : Option String) : List Bytes → Option (List (Reply α))
  | [] => some []
  | source :: sources => do
      let first ← run p source label
      let rest ← runEach p label sources
      some (first :: rest)

def logOf (replies : List (Reply α)) : Log := replies.flatMap Reply.log

end SliceGrammar.Parser
