import ChainCompiler.Parser.Expr

/-! Parsing of pipelines: steps with modifiers, and the router blocks that hold pipelines in turn. Everywhere `n` is a
bound on the tokens that are left. -/

namespace ChainCompiler.Parser

def modifiers : Nat → Expr → Parser Expr
  | 0, e => return e
  | n + 1, e => do
    if ← isAt (.mark .bind) then
      let _ ← next
      let name ← expectIdentifier .modifierName
      let m ← call n (expr n) name
      modifiers n (.bind e m)
    else return e

/-- An expression, with a router block if it is a call to the router and a brace follows. -/
def exprBlock (n : Nat) (block : Parser RouterBlock) : Parser Expr := do
  match ← expr n with
  | .call c =>
    if c.name = Keyword.router.spelling && (← isAt (.mark .lbrace)) then
      return .call { c with router := some (← block) }
    return .call c
  | e => return e

def step (n : Nat) (block : Parser RouterBlock) : Parser Expr := do
  let e ← exprBlock n block
  modifiers n e

/-- Passes over the newlines in front of a pipe; other newlines stay. -/
def joinLines : Parser Unit := fun c =>
  if c.skipNewlines.current.kind = .mark .pipe then .ok ((), c.skipNewlines) else .ok ((), c)

def moreSteps (block : Parser RouterBlock) (bracketed : Bool) : Nat → Parser (List Expr)
  | 0 => return []
  | n + 1 => do
    if bracketed then joinLines
    if ← isAt (.mark .pipe) then
      let _ ← next
      if bracketed then skipNewlines
      let e ← step n block
      return e :: (← moreSteps block bracketed n)
    else return []

/-- Both line breaks of a step as parsers of their own. -/
theorem moreSteps_succ (block : Parser RouterBlock) (bracketed : Bool) (n : Nat) :
    moreSteps block bracketed (n + 1) =
      (if bracketed then joinLines else pure ()) >>= fun _ => isAt (.mark .pipe) >>= fun b =>
        if b then
          next >>= fun _ => (if bracketed then skipNewlines else pure ()) >>= fun _ =>
            step n block >>= fun e => moreSteps block bracketed n >>= fun es => pure (e :: es)
        else pure [] := by
  cases bracketed <;> rfl

/-- The steps of a pipeline. Inside brackets lines may be broken on both sides of a pipe, elsewhere a pipeline ends
with its line. -/
def pipeline (n : Nat) (block : Parser RouterBlock) (bracketed : Bool) : Parser (List Expr) := do
  let e ← step n block
  return e :: (← moreSteps block bracketed n)

inductive Arm where
  | case (condition : Expr) (action : List Expr)
  | fallback (action : List Expr)

namespace Arm

def isFallback : Arm → Bool
  | .case .. => false
  | .fallback _ => true

def before (a : Arm) (b : RouterBlock) : RouterBlock :=
  match a with
  | .case condition action => { b with cases := (condition, action) :: b.cases }
  | .fallback action => { b with fallback := some action }

end Arm

def arm (n : Nat) (block : Parser RouterBlock) (hasFallback : Bool) : Parser Arm := do
  let token ← current
  match token.kind with
  | .keyword .caseKw =>
    let _ ← next
    let condition ← expr n
    let _ ← expect (.mark .arrow) .caseArrow
    return .case condition (← pipeline n block true)
  | .keyword .defaultKw =>
    if hasFallback then duplicate .routerArm Keyword.defaultKw.spelling token
    let _ ← next
    let _ ← expect (.mark .arrow) .defaultArrow
    return .fallback (← pipeline n block true)
  | _ => fail .arm

/-- The arms up to the closing brace. A single comma may follow an arm directly. -/
def arms (block : Parser RouterBlock) : Nat → Bool → Parser RouterBlock
  | 0, _ => fail .arm
  | n + 1, hasFallback => do
    skipNewlines
    if ← isAt (.mark .rbrace) then return ⟨[], none⟩
    let a ← arm n block hasFallback
    if ← isAt (.mark .comma) then let _ ← next
    return a.before (← arms block n (hasFallback || a.isFallback))

def routerBlockWith (n : Nat) (block : Parser RouterBlock) : Parser RouterBlock := do
  let _ ← expect (.mark .lbrace) .routerOpen
  let b ← arms block (n + 1) false
  let _ ← expect (.mark .rbrace) .routerClose
  return b

def routerBlockTo : Nat → Parser RouterBlock
  | 0 => fail .routerOpen
  | n + 1 => routerBlockWith n (routerBlockTo n)

/-- A router block: each level of blocks takes a token, so the tokens left bound the levels. -/
def routerBlock (n : Nat) : Parser RouterBlock := routerBlockTo (n + 1)

end ChainCompiler.Parser
