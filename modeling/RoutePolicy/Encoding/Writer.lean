import RoutePolicy.Encoding.Tag

/-!
Writing policies in the service's encoding. A node that was read from a qualified class name is
written with it, any other with the last segment alone.
-/

set_option autoImplicit false

namespace RoutePolicy.Encoding

/-- The class name of a node: its spelling, if that names the class. -/
def spelled (cls : Spelling) (short : String) : Json :=
  match cls with
  | some name => .str (if lastSegment name = short then name else short)
  | none => .str short

def asns (list : List Int) : Json := .arr (list.map Json.int)

def writeLiteral (cls : Spelling) : Literal → Json
  | .bool value =>
    .obj [("class", spelled cls ExprTag.boolean.name), ("type", .str (if value then "True" else "False"))]
  | .int value => .obj [("class", spelled cls ExprTag.integer.name), ("value", .int value)]
  | .address text => .obj [("class", spelled cls ExprTag.address.name), ("ip", .str text)]
  | .network text => .obj [("class", spelled cls ExprTag.network.name), ("prefix", .str text)]
  | .communities texts =>
    .obj [("class", spelled cls ExprTag.communities.name), ("communitySet", .strs texts)]
  | .asPath list => .obj [("class", spelled cls ExprTag.asPath.name), ("asns", asns list)]

mutual

def writeExpr : Expr → Json
  | .lit cls value => writeLiteral cls value
  | .attr cls name => .obj [("class", spelled cls ExprTag.ref.name), ("attribute", .str name.name)]
  | .junction cls .all operands =>
    .obj [("class", spelled cls ExprTag.all.name), ("conjuncts", .arr (writeExprs operands))]
  | .junction cls .any operands =>
    .obj [("class", spelled cls ExprTag.any.name), ("disjuncts", .arr (writeExprs operands))]
  | .not cls operand => .obj [("class", spelled cls ExprTag.not.name), ("expr", writeExpr operand)]
  | .compare cls comparator left right =>
    .obj [("class", spelled cls ExprTag.compare.name), ("comparator", .str comparator.name),
      ("left", writeExpr left), ("right", writeExpr right)]
  | .hasCommunity cls subject community =>
    .obj [("class", spelled cls ExprTag.hasCommunity.name), ("communitySetExpr", writeExpr subject),
      ("community", .str community)]
  | .inRanges cls subject ranges setCls =>
    .obj [("class", spelled cls ExprTag.matchNetworks.name), ("prefix", writeExpr subject),
      ("prefixSet", .obj [("class", .str (setCls.getD SetTag.explicit.name)),
        ("prefixSpace", .strs ranges)])]
  | .inList cls subject name setCls =>
    .obj [("class", spelled cls ExprTag.matchNetworks.name), ("prefix", writeExpr subject),
      ("prefixSet", .obj [("class", .str (setCls.getD SetTag.named.name)), ("name", .str name)])]
  | .union cls operands =>
    .obj [("class", spelled cls ExprTag.union.name), ("exprs", .arr (writeExprs operands))]
  | .prepend cls list operand =>
    .obj [("class", spelled cls ExprTag.prepend.name), ("asns", asns list), ("expr", writeExpr operand)]
  | .call cls policy =>
    .obj [("class", spelled cls ExprTag.call.name), ("calledPolicyName", .str policy)]
  | .adjust cls .increment amount =>
    .obj [("class", spelled cls ExprTag.increment.name), ("addend", .int amount)]
  | .adjust cls .decrement amount =>
    .obj [("class", spelled cls ExprTag.decrement.name), ("subtrahend", .int amount)]
  | .namedSet cls name => .obj [("class", spelled cls ExprTag.namedSet.name), ("name", .str name)]
  | .unsupported _ raw => raw

def writeExprs : List Expr → List Json
  | [] => []
  | e :: rest => writeExpr e :: writeExprs rest

end

def writeComment : Comment → List (String × Json)
  | .absent => []
  | .null => [("comment", .null)]
  | .text words => [("comment", .str words)]

mutual

def writeStatement : Statement → Json
  | .branch cls guard onTrue onFalse comment =>
    .obj ([("class", spelled cls StatementTag.branch.name), ("guard", writeExpr guard),
      ("trueStatements", .arr (writeStatements onTrue)),
      ("falseStatements", .arr (writeStatements onFalse))] ++ writeComment comment)
  | .assign cls target value =>
    .obj [("class", spelled cls (StatementTag.assign target).name), (valueKey target, writeExpr value)]
  | .finish cls disposition =>
    .obj [("class", spelled cls StatementTag.finish.name), ("type", .str (endingName disposition))]

def writeStatements : List Statement → List Json
  | [] => []
  | s :: rest => writeStatement s :: writeStatements rest

end

def writePolicy (policy : Policy) : Json :=
  .obj [("name", .str policy.name), ("statements", .arr (writeStatements policy.statements))]

end RoutePolicy.Encoding
