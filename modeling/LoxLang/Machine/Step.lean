import LoxLang.Machine

/-! One step of the machine. -/
namespace LoxLang
namespace Config

def fail (cause : Mishap) (line : Nat) (frames : List Frame) (m : Machine) : Config :=
  ⟨.done (.failed ⟨cause, line⟩), frames, m⟩

def value (v : Value) (frames : List Frame) (m : Machine) : Config := ⟨.done (.value v), frames, m⟩

def normal (frames : List Frame) (m : Machine) : Config := ⟨.done .normal, frames, m⟩

def ofExcept (line : Nat) (r : Except Mishap Value) (frames : List Frame) (m : Machine) : Config :=
  match r with
  | .ok v => value v frames m
  | .error cause => fail cause line frames m

def eval (locate : Locator) (e : Expr) (frames : List Frame) (m : Machine) : Config :=
  match e with
  | .literal _ l => value (.ofLiteral l) frames m
  | .grouping _ inner => ⟨.eval inner, frames, m⟩
  | .unary line op operand => ⟨.eval operand, .unary line op :: frames, m⟩
  | .binary line op left right => ⟨.eval left, .left line op right :: frames, m⟩
  | .logical _ op left right => ⟨.eval left, .logical op right :: frames, m⟩
  | .reference line name id =>
    match (locate m name id).bind (m.store.read? · name) with
    | some v => value v frames m
    | none => fail (.undefinedVariable name) line frames m
  | .assign line name id e => ⟨.eval e, .assign line name id :: frames, m⟩
  | .call line callee args => ⟨.eval callee, .callee line args :: frames, m⟩

def exec (s : Stmt) (frames : List Frame) (m : Machine) : Config :=
  match s with
  | .expression _ e => ⟨.eval e, .discard :: frames, m⟩
  | .print line e => ⟨.eval e, .print line :: frames, m⟩
  | .var _ name none => normal frames (m.define name .nil)
  | .var _ name (some e) => ⟨.eval e, .var name :: frames, m⟩
  | .block _ body => ⟨.execAll body, .block m.current :: frames, m.openScope m.current⟩
  | .branch _ condition thenBranch elseBranch =>
    ⟨.eval condition, .branch thenBranch elseBranch :: frames, m⟩
  | .loop _ condition body => ⟨.eval condition, .test condition body :: frames, m⟩
  | .function _ name params body => normal frames (m.declareFunction name params body)
  | .result _ none => ⟨.done (.returned .nil), frames, m⟩
  | .result _ (some e) => ⟨.eval e, .result :: frames, m⟩

def call (f : Function) (args : List Value) (line : Nat) (frames : List Frame) (m : Machine) :
    Config :=
  if m.mayCall then ⟨.execAll f.body, .call m.current :: frames, m.enterCall f args⟩
  else fail .stackOverflow line frames m

/-- All arguments are evaluated before the callee is looked at. -/
def apply (callee : Value) (args : List Value) (line : Nat) (frames : List Frame) (m : Machine) :
    Config :=
  match callee with
  | .function f =>
    if args.length = f.arity then ⟨.call f args line, frames, m⟩
    else fail (.wrongArity f.arity args.length) line frames m
  | _ => fail .notCallable line frames m

def arguments (line : Nat) (callee : Value) (args : List Value) (rest : List Expr)
    (frames : List Frame) (m : Machine) : Config :=
  match rest with
  | [] => apply callee args.reverse line frames m
  | e :: rest => ⟨.eval e, .argument line callee args rest :: frames, m⟩

def print (line : Nat) (v : Value) (frames : List Frame) (m : Machine) : Config :=
  let text := v.text ++ "\n"
  let fits := m.output.fits text
  let m := { m with output := m.output.write text }
  if fits then normal frames m else fail .outputFull line frames m

def resume (locate : Locator) (v : Value) (f : Frame) (frames : List Frame) (m : Machine) : Config :=
  match f with
  | .unary line op => ofExcept line (op.apply v) frames m
  | .left line op right => ⟨.eval right, .right line op v :: frames, m⟩
  | .right line op left => ofExcept line (op.apply left v) frames m
  | .logical op right => if op.stopsAt v then value v frames m else ⟨.eval right, frames, m⟩
  | .assign line name id =>
    match locate m name id with
    | some h => value v frames { m with store := m.store.define h name v }
    | none => fail (.undefinedVariable name) line frames m
  | .callee line args => arguments line v [] args frames m
  | .argument line callee args rest => arguments line callee (v :: args) rest frames m
  | .print line => print line v frames m
  | .var name => normal frames (m.define name v)
  | .result => ⟨.done (.returned v), frames, m⟩
  | .branch thenBranch elseBranch =>
    if v.truthy then ⟨.exec thenBranch, frames, m⟩
    else
      match elseBranch with
      | some s => ⟨.exec s, frames, m⟩
      | none => normal frames m
  | .test condition body =>
    if v.truthy then ⟨.exec body, .again condition body :: frames, m⟩ else normal frames m
  | _ => normal frames m

def proceed (f : Frame) (frames : List Frame) (m : Machine) : Config :=
  match f with
  | .again condition body => ⟨.eval condition, .test condition body :: frames, m⟩
  | .sequence rest => ⟨.execAll rest, frames, m⟩
  | .program rest => ⟨.program rest, frames, m⟩
  | .block outer => normal frames { m with current := outer }
  | .call caller => value .nil frames (m.leaveCall caller)
  | _ => normal frames m

/-- A `return` leaves all statements up to the call; at the top of a program nothing comes of it. -/
def unwindReturn (v : Value) (f : Frame) (frames : List Frame) (m : Machine) : Config :=
  match f with
  | .program rest => ⟨.program rest, frames, m⟩
  | .block outer => ⟨.done (.returned v), frames, { m with current := outer }⟩
  | .call caller => value v frames (m.leaveCall caller)
  | _ => ⟨.done (.returned v), frames, m⟩

def unwindError (e : RuntimeError) (f : Frame) (frames : List Frame) (m : Machine) : Config :=
  match f with
  | .block outer => ⟨.done (.failed e), frames, { m with current := outer }⟩
  | .call caller => ⟨.done (.failed e), frames, m.leaveCall caller⟩
  | _ => ⟨.done (.failed e), frames, m⟩

def pop (locate : Locator) (s : Signal) (f : Frame) (frames : List Frame) (m : Machine) : Config :=
  match s with
  | .value v => resume locate v f frames m
  | .normal => proceed f frames m
  | .returned v => unwindReturn v f frames m
  | .failed e => unwindError e f frames m

/-- A configuration with nothing left to do stays as it is. -/
def step (locate : Locator) : Config → Config
  | ⟨.eval e, frames, m⟩ => eval locate e frames m
  | ⟨.exec s, frames, m⟩ => exec s frames m
  | ⟨.execAll [], frames, m⟩ => normal frames m
  | ⟨.execAll (s :: ss), frames, m⟩ => ⟨.exec s, .sequence ss :: frames, m⟩
  | ⟨.program [], frames, m⟩ => normal frames m
  | ⟨.program (s :: ss), frames, m⟩ => ⟨.exec s, .program ss :: frames, m⟩
  | ⟨.call f args line, frames, m⟩ => call f args line frames m
  | ⟨.done s, f :: frames, m⟩ => pop locate s f frames m
  | ⟨.done s, [], m⟩ => ⟨.done s, [], m⟩

end Config
end LoxLang
