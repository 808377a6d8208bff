import Lox.Machine.State

/-!
One step of the machine.

A step takes the thing in hand apart, hands a value to what waits first, or passes a way out on to
it. What waits is dropped by a way out, except that ends of blocks and calls put the environment
of their surroundings back, that a loop stops `leaveLoop`, and that a call stops `leaveCall`.
-/

namespace Lox.Machine

/-! ### Outcomes -/

def give (m : Machine) (v : Value) : Machine :=
  { m with control := .value v }

def fail (m : Machine) (f : Failure) : Machine :=
  { m with control := .exit (.fail f) }

/-- Fails at a token. -/
def failAt (m : Machine) (t : Token) (f : RuntimeFault) : Machine :=
  m.fail (.runtime t.line f)

def giveResult (m : Machine) (r : Except Failure Value) : Machine :=
  match r with
  | .ok v => m.give v
  | .error f => m.fail f

/-- Takes up the next thing, and lets `p` wait for it. -/
def await (m : Machine) (p : Pending) (c : Control) : Machine :=
  { m with control := c, pending := p :: m.pending }

/-- A statement has come to its end. -/
def finish (m : Machine) : Machine := m.give .nil

@[inline]
def change (m : Machine) (f : World → World) : Machine :=
  { m with world := f m.world }

/-! ### Variables -/

/-- Gives the variable that was found. -/
def giveFound (m : Machine) (name : Token) (found : Option Value) : Machine :=
  match found with
  | some v => m.give v
  | none => m.failAt name (.undefinedVariable name.lexeme)

/-- Reads the variable of a node: at its distance, or else the global one. -/
def readVariable (s : Setting) (m : Machine) (id : NodeId) (name : Token) : Machine :=
  m.giveFound name <|
    match s.distances[id]? with
    | some d => m.world.frames.getAt? m.env d name.lexeme
    | none => m.world.frames.get? Env.globals name.lexeme

/-- Overwrites a variable in the frame that holds it, if there is one. -/
def writeIn (m : Machine) (holder : Option FrameId) (name : Token) (v : Value) : Machine :=
  match holder with
  | some f => (m.change (·.write f name.lexeme v)).give v
  | none => m.failAt name (.undefinedVariable name.lexeme)

/-- Writes the variable of a node: at its distance, or else the global one. -/
def writeVariable (s : Setting) (m : Machine) (id : NodeId) (name : Token) (v : Value) : Machine :=
  let holder :=
    match s.distances[id]? with
    | some d => m.world.frames.holderAt? m.env d name.lexeme
    | none => m.world.frames.holder? Env.globals name.lexeme
  m.writeIn holder name v

/-- Creates or overwrites a variable of the current frame. -/
def define (m : Machine) (name : Token) (v : Value) : Machine :=
  let env := m.env
  (m.change (·.define env name.lexeme v)).finish

/-! ### Calls -/

/-- The variables of a call. -/
def parameterFrame (params : List Token) (args : List Value) : Table Value :=
  Table.ofList ((params.zip args).map fun (p, v) => (p.lexeme, v))

/-- Enters a function: its variables stand in a new frame inside the environment it was declared
in. `site` is where a call beyond the limit is reported. -/
def enter (m : Machine) (c : Closure) (args : List Value) (site : Token) : Machine :=
  if maxDepth ≤ m.depth then m.failAt site .stackOverflow
  else
    { control := .execAll c.decl.body
      pending := .leaveCall m.env c :: m.pending
      env := m.world.frames.next :: c.env
      depth := m.depth + 1
      world := m.world.addFrame (parameterFrame c.decl.paramList args) }

/-- Leaves a function with a value, back to the environment of the caller. An initializer yields
the object it is bound to. -/
def leave (m : Machine) (env : Env) (c : Closure) (v : Value) : Machine :=
  let m := { m with env, depth := m.depth - 1 }
  if c.isInitializer then
    match m.world.frames.getAt? c.env 0 "this" with
    | some this => m.give this
    | none => m.failAt c.decl.name (.undefinedVariable "this")
  else m.give v

/-- Binds a method to its object or class: a frame of its own, directly around the code of the
method, holds `this`. The number of the frame is `m.world.frames.next`. -/
def bind (m : Machine) (this : Value) : Machine :=
  m.change (·.addFrame [("this", this)])

/-- Makes an object, and runs the initializer of its class if there is one. -/
def construct (m : Machine) (c : ClassInfo) (args : List Value) (site : Token) : Machine :=
  let object := Value.object m.world.nextOwner c
  let m := m.change (·.addOwner)
  match c.initializer? with
  | none => m.give object
  | some f =>
    let bound := f.within m.world.frames.next
    let m := m.bind object
    { m with pending := .construct object :: m.pending }.enter bound args site

/-- Calls a value with as many arguments as it takes. -/
def invoke (s : Setting) (m : Machine) (callee : Value) (args : List Value) (paren : Token) :
    Machine :=
  match callee with
  | .native n =>
    match s.host n.name args with
    | .ok v => m.give v
    | .error message => m.failAt paren (.native message)
  | .function _ c => m.enter c args paren
  | .classValue _ c => m.construct c args paren
  | _ => m.failAt paren .notCallable

/-- Calls a value. -/
def call (s : Setting) (m : Machine) (callee : Value) (args : List Value) (paren : Token) :
    Machine :=
  match callee.arity? with
  | none => m.failAt paren .notCallable
  | some n =>
    if args.length = n then m.invoke s callee args paren
    else m.failAt paren (.wrongArity n args.length)

/-- Takes up the next argument of a call, or makes the call if there is none. -/
def nextArgument (s : Setting) (m : Machine) (callee : Value) (paren : Token) (found : List Value)
    (rest : List Expr) : Machine :=
  match rest with
  | [] => m.call s callee found.reverse paren
  | e :: rest => m.await (.argument callee paren found rest) (.eval e)

/-! ### Properties -/

/-- Gives a new function with the code of a closure. -/
def giveFunction (m : Machine) (c : Closure) : Machine :=
  let f := Value.function m.world.functions c
  (m.change (·.addFunction)).give f

/-- Gives a method bound to its owner, or the outcome of a getter, which is run at once. -/
def giveMethod (m : Machine) (object : Value) (c : Closure) (name : Token) : Machine :=
  let bound := c.within m.world.frames.next
  let m := m.bind object
  if c.decl.isGetter then m.enter bound [] name else m.giveFunction bound

/-- Reads a field, or else a method. -/
def readMember (m : Machine) (owner : Nat) (object : Value) (method? : Option Closure)
    (name : Token) : Machine :=
  match m.world.field? owner name.lexeme, method? with
  | some v, _ => m.give v
  | none, some c => m.giveMethod object c name
  | none, none => m.failAt name (.undefinedProperty name.lexeme)

def readProperty (m : Machine) (object : Value) (name : Token) : Machine :=
  match object with
  | .object id c => m.readMember id object (c.methods.get? name.lexeme) name
  | .classValue id c => m.readMember id object (c.statics.get? name.lexeme) name
  | _ => m.failAt name .noProperties

/-- Checks that a value has fields before the value of a field is looked at. -/
def takeTarget (m : Machine) (object : Value) (name : Token) (value : Expr) : Machine :=
  match object with
  | .object id _ => m.await (.field id name) (.eval value)
  | .classValue id _ => m.await (.field id name) (.eval value)
  | _ => m.failAt name .noFields

/-! ### Declarations -/

def declareFunction (m : Machine) (d : FunctionDecl) : Machine :=
  let f := Value.function m.world.functions ⟨d, m.env, false⟩
  (m.change (·.addFunction)).define d.name f

/-- The methods of a class. Of several with one name the last counts. -/
def methodTable (env : Env) (ds : List FunctionDecl) : Table Closure :=
  Table.ofList (ds.map fun d => (d.name.lexeme, ⟨d, env, d.name.lexeme = initName⟩))

def staticTable (env : Env) (ds : List FunctionDecl) : Table Closure :=
  Table.ofList (ds.map fun d => (d.name.lexeme, ⟨d, env, false⟩))

/-- Declares a class. The methods see the environment in which its name is declared. -/
def declareClass (m : Machine) (name : Token) (methods statics : List FunctionDecl) : Machine :=
  let c : ClassInfo := ⟨name.lexeme, methodTable m.env methods, staticTable m.env statics⟩
  let v := Value.classValue m.world.nextOwner c
  (m.change (·.addOwner)).define name v

/-! ### Statements and expressions -/

/-- Prints the text of a value on a line of its own, or as much of it as there is room for. -/
def printLine (m : Machine) (v : Value) : Machine :=
  let bytes := (v.text ++ "\n").toUTF8
  let fits := m.world.sink.hasRoom bytes.size
  let m := m.change (·.put bytes)
  if fits then m.finish else m.fail (.sink .full)

/-- Opens a block: a new frame inside the current environment. -/
def openBlock (m : Machine) (body : List Stmt) : Machine :=
  { control := .execAll body
    pending := .leaveBlock m.env :: m.pending
    env := m.world.frames.next :: m.env
    depth := m.depth
    world := m.world.addFrame [] }

def literal : Literal → Value
  | .number x => .number x
  | .string s => .string s
  | .boolean b => .boolean b
  | .nil => .nil

def evalStep (s : Setting) (m : Machine) : Expr → Machine
  | .literal l => m.give (literal l)
  | .group e => { m with control := .eval e }
  | .unary op e => m.await (.unary op) (.eval e)
  | .binary l op r => m.await (.binaryLeft op r) (.eval l)
  | .logical l op r => m.await (.logical op r) (.eval l)
  | .conditional c t e => m.await (.conditional t e) (.eval c)
  | .reference id name => m.readVariable s id name
  | .assign id name e => m.await (.assign id name) (.eval e)
  | .call f paren args => m.await (.callee paren args) (.eval f)
  | .property e name => m.await (.property name) (.eval e)
  | .setProperty e name value => m.await (.target name value) (.eval e)
  | .this id keyword => m.readVariable s id keyword

def execStep (m : Machine) : Stmt → Machine
  | .expression e => m.await .discard (.eval e)
  | .print e => m.await .print (.eval e)
  | .declare name none => m.define name .nil
  | .declare name (some e) => m.await (.declare name) (.eval e)
  | .block body => m.openBlock body
  | .branch c t e => m.await (.branch t e) (.eval c)
  | .loop c body => m.await (.loopTest c body) (.eval c)
  | .breakLoop _ => { m with control := .exit .leaveLoop }
  | .function d => m.declareFunction d
  | .returnFrom _ none => { m with control := .exit (.leaveCall .nil) }
  | .returnFrom _ (some e) => m.await .giveBack (.eval e)
  | .classDecl name methods statics => m.declareClass name methods statics

/-- Hands a value to what waited for it. -/
def receive (s : Setting) (m : Machine) (p : Pending) (v : Value) : Machine :=
  match p with
  | .unary op => m.giveResult (Operator.unary op v)
  | .binaryLeft op r => m.await (.binaryRight v op) (.eval r)
  | .binaryRight l op => m.giveResult (Operator.binary op l v)
  | .logical op r => if Operator.decides op v then m.give v else { m with control := .eval r }
  | .conditional t e => { m with control := .eval (if v.isTruthy then t else e) }
  | .assign id name => m.writeVariable s id name v
  | .callee paren args => m.nextArgument s v paren [] args
  | .argument callee paren found rest => m.nextArgument s callee paren (v :: found) rest
  | .property name => m.readProperty v name
  | .target name value => m.takeTarget v name value
  | .field owner name => (m.change (·.setField owner name.lexeme v)).give v
  | .discard => m.finish
  | .print => m.printLine v
  | .declare name => m.define name v
  | .branch t e =>
    if v.isTruthy then { m with control := .exec t }
    else
      match e with
      | some e => { m with control := .exec e }
      | none => m.finish
  | .loopTest c body => if v.isTruthy then m.await (.loopBody c body) (.exec body) else m.finish
  | .loopBody c body => m.await (.loopTest c body) (.eval c)
  | .giveBack => { m with control := .exit (.leaveCall v) }
  | .sequence rest => { m with control := .execAll rest }
  | .leaveBlock env => { m with env }.finish
  | .leaveCall env c => m.leave env c .nil
  | .construct object => m.give object

/-- Passes a way out on to what waited for a value. -/
def unwind (m : Machine) (p : Pending) (x : Exit) : Machine :=
  match p, x with
  | .loopBody .., .leaveLoop => m.finish
  | .leaveBlock env, _ => { m with env }
  | .leaveCall env c, .leaveCall v => m.leave env c v
  | .leaveCall env _, _ => { m with env, depth := m.depth - 1 }
  | _, _ => m

/-- One step. A machine at the end of its run stays as it is. -/
def step (s : Setting) (m : Machine) : Machine :=
  match m.control with
  | .eval e => m.evalStep s e
  | .exec d => m.execStep d
  | .execAll [] => m.finish
  | .execAll (d :: rest) => m.await (.sequence rest) (.exec d)
  | .value v =>
    match m.pending with
    | [] => m
    | p :: rest => { m with pending := rest }.receive s p v
  | .exit x =>
    match m.pending with
    | [] => m
    | p :: rest => { m with pending := rest }.unwind p x

end Lox.Machine
