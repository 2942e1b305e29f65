/-!
# Stages

A function is emitted in three calls, header, body and merge, each possible at one stage only.
-/

namespace SpirvKernel

inductive Stage where
  | constructed
  | afterHeader
  | afterBody
  | merged
  deriving DecidableEq, Repr

def Stage.text : Stage → String
  | .constructed => "constructed"
  | .afterHeader => "after header"
  | .afterBody => "after body"
  | .merged => "merged"

/-- The calls that a stage admits or refuses. -/
inductive Call where
  | header
  | body
  | merge
  deriving DecidableEq, Repr

namespace Call

def name : Call → String
  | .header => "generate_header"
  | .body => "generate_code"
  | .merge => "merge"

/-- The stage at which a call is possible. -/
def stage : Call → Stage
  | .header => .constructed
  | .body => .afterHeader
  | .merge => .afterBody

/-- The stage that a call leads to. -/
def next : Call → Stage
  | .header => .afterHeader
  | .body => .afterBody
  | .merge => .merged

end Call

end SpirvKernel
