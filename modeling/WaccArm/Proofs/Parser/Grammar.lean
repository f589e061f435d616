import WaccArm.Token.Basic
import WaccArm.Tree.Program

namespace WaccArm.Grammar

abbrev Phrase := List (Located Token)

abbrev mark (symbol : Symbol) (pos : Pos) : Located Token := ⟨.symbol symbol, pos⟩

abbrev word (keyword : Keyword) (pos : Pos) : Located Token := ⟨.keyword keyword, pos⟩

abbrev ident (name : String) (pos : Pos) : Located Token := ⟨.ident name, pos⟩

/-- The place where a phrase starts. -/
def StartsAt (ts : Phrase) (pos : Pos) : Prop := ts.head?.map Located.pos = some pos

/-- The words that name types. -/
inductive BaseType : Keyword → TypeExpr → Prop
  | int : BaseType .int .int
  | bool : BaseType .bool .bool
  | char : BaseType .char .char
  | string : BaseType .string .string

/-- So many pairs of brackets. -/
inductive Brackets : Nat → Phrase → Prop
  | zero : Brackets 0 []
  | succ {n ts p q} (h : Brackets n ts) :
    Brackets (n + 1) (mark .openBracket p :: mark .closeBracket q :: ts)

/-- A side of a pair type. The word `pair` stands for a pair of anything there. -/
inductive SideSpelled : Option TypeExpr → Phrase → Prop
  | base {keyword type p} (hbase : BaseType keyword type) : SideSpelled (some type) [word keyword p]
  | baseArray {keyword type n ts p} (hbase : BaseType keyword type) (hdims : Brackets (n + 1) ts) :
    SideSpelled (some (.array type (n + 1))) (word keyword p :: ts)
  | pair {p} : SideSpelled none [word .pair p]
  | pairArray {n ts p} (hdims : Brackets (n + 1) ts) :
    SideSpelled (some (.array (.pair none none) (n + 1))) (word .pair p :: ts)

/-- A type that is no array. -/
inductive ElementSpelled : TypeExpr → Phrase → Prop
  | base {keyword type p} (hbase : BaseType keyword type) : ElementSpelled type [word keyword p]
  | pair {fst snd ts us p q r t} (hfst : SideSpelled fst ts) (hsnd : SideSpelled snd us) :
    ElementSpelled (.pair fst snd)
      (word .pair p :: mark .openParen q :: (ts ++ mark .comma r :: (us ++ [mark .closeParen t])))

inductive TypeSpelled : TypeExpr → Phrase → Prop
  | element {type ts} (h : ElementSpelled type ts) : TypeSpelled type ts
  | array {elem n ts us} (helem : ElementSpelled elem ts) (hdims : Brackets (n + 1) us) :
    TypeSpelled (.array elem (n + 1)) (ts ++ us)

def operatorMark : BinaryOp → Symbol
  | .mul => .times
  | .div => .divide
  | .rem => .percent
  | .add => .plus
  | .sub => .minus
  | .gt => .gt
  | .ge => .ge
  | .lt => .lt
  | .le => .le
  | .eq => .eq
  | .ne => .ne
  | .and => .and
  | .or => .or

/-- The operators of a level. Those of a higher level bind more strongly. -/
def operatorsAt : Nat → List BinaryOp
  | 0 => [.or]
  | 1 => [.and]
  | 2 => [.eq, .ne]
  | 3 => [.gt, .ge, .lt, .le]
  | 4 => [.add, .sub]
  | 5 => [.mul, .div, .rem]
  | _ => []

/-- The level of operands, above all binary operators. -/
def operandLevel : Nat := 6

def unaryToken : UnaryOp → Token
  | .not => .symbol .not
  | .negate => .symbol .minus
  | .len => .keyword .len
  | .ord => .keyword .ord
  | .chr => .keyword .chr

/-- The phrase starts with the digits of an integer. -/
def StartsWithInt (ts : Phrase) : Prop := ∃ value : Nat, ts.head?.map Located.val = some (.int value)

/-- What a phrase inside an expression is read as: an expression of a level, a variable or an element of
an array, or some indices. -/
inductive ExprTree where
  | expr (level : Nat) (e : Source.Expr)
  | named (e : Source.Expr)
  | indices (es : List Source.Expr)

inductive ExprSpelled : ExprTree → Phrase → Prop
  -- The left operand has the level of the operator, so operators of one level group to the left.
  | binary {level op left right ts us p} (hop : op ∈ operatorsAt level)
    (hleft : ExprSpelled (.expr level left) ts) (hright : ExprSpelled (.expr (level + 1) right) us) :
    ExprSpelled (.expr level (.binary left.note op left right)) (ts ++ mark (operatorMark op) p :: us)
  | higher {level e ts} (hlevel : level < operandLevel) (h : ExprSpelled (.expr (level + 1) e) ts) :
    ExprSpelled (.expr level e) ts
  | int {n : Nat} {value : Int32} {p} (hvalue : value.toInt = n) :
    ExprSpelled (.expr operandLevel (.int p value)) [⟨.int n, p⟩]
  | plusInt {n : Nat} {value : Int32} {p q} (hvalue : value.toInt = n) :
    ExprSpelled (.expr operandLevel (.int p value)) [mark .plus p, ⟨.int n, q⟩]
  | minusInt {n : Nat} {value : Int32} {p q} (hvalue : value.toInt = -n) :
    ExprSpelled (.expr operandLevel (.int p value)) [mark .minus p, ⟨.int n, q⟩]
  | true {p} : ExprSpelled (.expr operandLevel (.bool p true)) [word .true_ p]
  | false {p} : ExprSpelled (.expr operandLevel (.bool p false)) [word .false_ p]
  | char {value p} : ExprSpelled (.expr operandLevel (.char p value)) [⟨.char value, p⟩]
  | str {value p} : ExprSpelled (.expr operandLevel (.str p value)) [⟨.str value, p⟩]
  | null {p} : ExprSpelled (.expr operandLevel (.null p)) [word .null p]
  -- A sign before an integer belongs to the integer.
  | unary {op e ts p} (h : ExprSpelled (.expr operandLevel e) ts)
    (hsign : op = .negate → ¬ StartsWithInt ts) :
    ExprSpelled (.expr operandLevel (.unary p op e)) (⟨unaryToken op, p⟩ :: ts)
  | named {e ts} (h : ExprSpelled (.named e) ts) : ExprSpelled (.expr operandLevel e) ts
  | parens {e ts p q} (h : ExprSpelled (.expr 0 e) ts) :
    ExprSpelled (.expr operandLevel e) (mark .openParen p :: (ts ++ [mark .closeParen q]))
  | var {name p} : ExprSpelled (.named (.var p name)) [ident name p]
  | elem {name e es ts p} (h : ExprSpelled (.indices (e :: es)) ts) :
    ExprSpelled (.named (.elem p name (e :: es))) (ident name p :: ts)
  | noIndex : ExprSpelled (.indices []) []
  | index {e es ts us p q} (hindex : ExprSpelled (.expr 0 e) ts) (hothers : ExprSpelled (.indices es) us) :
    ExprSpelled (.indices (e :: es)) (mark .openBracket p :: (ts ++ mark .closeBracket q :: us))

def sideWord : Side → Keyword
  | .fst => .fst
  | .snd => .snd

/-- What can be assigned to and read into. -/
inductive PlaceSpelled : Source.Expr → Phrase → Prop
  | named {e ts} (h : ExprSpelled (.named e) ts) : PlaceSpelled e ts
  | side {side pair ts p} (h : PlaceSpelled pair ts) :
    PlaceSpelled (.side p side pair) (word (sideWord side) p :: ts)

/-- One or more expressions with commas between them. -/
inductive ListSpelled : List Source.Expr → Phrase → Prop
  | one {e ts} (h : ExprSpelled (.expr 0 e) ts) : ListSpelled [e] ts
  | cons {e es ts us p} (h : ExprSpelled (.expr 0 e) ts) (hothers : ListSpelled es us) :
    ListSpelled (e :: es) (ts ++ mark .comma p :: us)

/-- Expressions with commas between them, or none. -/
inductive ArgsSpelled : List Source.Expr → Phrase → Prop
  | none : ArgsSpelled [] []
  | some {es ts} (h : ListSpelled es ts) : ArgsSpelled es ts

/-- What can stand behind an equals sign. -/
inductive RightSpelled : Source.Expr → Phrase → Prop
  | expr {e ts} (h : ExprSpelled (.expr 0 e) ts) : RightSpelled e ts
  | side {side pair ts p} (h : PlaceSpelled pair ts) :
    RightSpelled (.side p side pair) (word (sideWord side) p :: ts)
  | array {es ts p q} (h : ArgsSpelled es ts) :
    RightSpelled (.array p es) (mark .openBracket p :: (ts ++ [mark .closeBracket q]))
  | newPair {fst snd ts us p q r t} (hfst : ExprSpelled (.expr 0 fst) ts)
    (hsnd : ExprSpelled (.expr 0 snd) us) :
    RightSpelled (.newPair p fst snd)
      (word .newpair p :: mark .openParen q :: (ts ++ mark .comma r :: (us ++ [mark .closeParen t])))
  | call {name args ts p q r t} (h : ArgsSpelled args ts) :
    RightSpelled (.call p name args)
      (word .call p :: ident name q :: mark .openParen r :: (ts ++ [mark .closeParen t]))

/-- What a phrase is read as: one statement, statements with semicolons between them, or the one statement
that such statements make up. -/
inductive StmtTree where
  | statement (s : Source.Stmt)
  | list (ss : List Source.Stmt)
  | body (s : Source.Stmt)

inductive StmtSpelled : StmtTree → Phrase → Prop
  | skip {p} : StmtSpelled (.statement (.skip p)) [word .skip p]
  | declare {type name init ts us p q r} (htype : TypeSpelled type ts) (hpos : StartsAt ts p)
    (hinit : RightSpelled init us) :
    StmtSpelled (.statement (.declare p type name init)) (ts ++ ident name q :: mark .assign r :: us)
  | assign {dst src ts us p q} (hdst : PlaceSpelled dst ts) (hpos : StartsAt ts p)
    (hsrc : RightSpelled src us) :
    StmtSpelled (.statement (.assign p dst src)) (ts ++ mark .assign q :: us)
  | read {e ts p} (h : PlaceSpelled e ts) : StmtSpelled (.statement (.read p e)) (word .read p :: ts)
  | free {e ts p} (h : ExprSpelled (.expr 0 e) ts) :
    StmtSpelled (.statement (.free p e)) (word .free p :: ts)
  | ret {e ts p} (h : ExprSpelled (.expr 0 e) ts) :
    StmtSpelled (.statement (.ret p e)) (word .return_ p :: ts)
  | exit {e ts p} (h : ExprSpelled (.expr 0 e) ts) :
    StmtSpelled (.statement (.exit p e)) (word .exit p :: ts)
  | print {e ts p} (h : ExprSpelled (.expr 0 e) ts) :
    StmtSpelled (.statement (.print p e false)) (word .print p :: ts)
  | println {e ts p} (h : ExprSpelled (.expr 0 e) ts) :
    StmtSpelled (.statement (.print p e true)) (word .println p :: ts)
  | branch {cond yes no ts us vs p q r t} (hcond : ExprSpelled (.expr 0 cond) ts)
    (hyes : StmtSpelled (.body yes) us) (hno : StmtSpelled (.body no) vs) :
    StmtSpelled (.statement (.branch p cond yes no))
      (word .if_ p :: (ts ++ word .then_ q :: (us ++ word .else_ r :: (vs ++ [word .fi t]))))
  | loop {cond body ts us p q r} (hcond : ExprSpelled (.expr 0 cond) ts)
    (hbody : StmtSpelled (.body body) us) :
    StmtSpelled (.statement (.loop p cond body))
      (word .while_ p :: (ts ++ word .do_ q :: (us ++ [word .done r])))
  | scope {body ts p q} (hbody : StmtSpelled (.body body) ts) :
    StmtSpelled (.statement (.scope p body)) (word .begin p :: (ts ++ [word .end_ q]))
  | one {s ts} (h : StmtSpelled (.statement s) ts) : StmtSpelled (.list [s]) ts
  | cons {s ss ts us p} (h : StmtSpelled (.statement s) ts) (hothers : StmtSpelled (.list ss) us) :
    StmtSpelled (.list (s :: ss)) (ts ++ mark .semicolon p :: us)
  | single {s ts} (h : StmtSpelled (.list [s]) ts) : StmtSpelled (.body s) ts
  | several {s s' ss ts} (h : StmtSpelled (.list (s :: s' :: ss)) ts) :
    StmtSpelled (.body (.seq s.mark (s :: s' :: ss))) ts

inductive ParamSpelled : Source.Param → Phrase → Prop
  | mk {type name ts p q} (htype : TypeSpelled type ts) (hpos : StartsAt ts p) :
    ParamSpelled ⟨type, name, p⟩ (ts ++ [ident name q])

/-- Parameters with commas between them, or none. -/
inductive ParamsSpelled : List Source.Param → Phrase → Prop
  | none : ParamsSpelled [] []
  | one {param ts} (h : ParamSpelled param ts) : ParamsSpelled [param] ts
  | cons {param other params ts us p} (h : ParamSpelled param ts)
    (hothers : ParamsSpelled (other :: params) us) :
    ParamsSpelled (param :: other :: params) (ts ++ mark .comma p :: us)

inductive FuncSpelled : Source.Func → Phrase → Prop
  | mk {name ret params body ts us vs p q r t u v} (hret : TypeSpelled ret ts) (hpos : StartsAt ts p)
    (hparams : ParamsSpelled params us) (hbody : StmtSpelled (.body body) vs) :
    FuncSpelled ⟨name, ret, params, body, p⟩
      (ts ++ ident name q :: mark .openParen r ::
        (us ++ mark .closeParen t :: word .is u :: (vs ++ [word .end_ v])))

inductive FuncsSpelled : List Source.Func → Phrase → Prop
  | nil : FuncsSpelled [] []
  | cons {f fs ts us} (h : FuncSpelled f ts) (hothers : FuncsSpelled fs us) :
    FuncsSpelled (f :: fs) (ts ++ us)

/-- The tokens spell a program. -/
inductive ProgramSpelled : Source.Program → Phrase → Prop
  | mk {funcs body ts us p q} (hfuncs : FuncsSpelled funcs ts) (hbody : StmtSpelled (.body body) us) :
    ProgramSpelled ⟨funcs, body⟩ (word .begin p :: (ts ++ (us ++ [word .end_ q])))

end WaccArm.Grammar
