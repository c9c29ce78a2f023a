import PugSize.Insert

/-!
A document that is edited step by step. A step puts image sizes into a call or exchanges a stretch of
the text; a step that is refused leaves the document as it was. What was looked up for it is kept.
-/

namespace PugSize

structure Session (σ : Type) where
  buffer : Buffer
  lookups : σ

namespace Session

variable {σ : Type}

inductive Step
  | insert (request : SizeRequest)
  | replace (start stop : Position) (new : Text)

/-- Why a step made no edit. -/
inductive Refusal
  | sizing (error : SizingError)
  | range (error : RangeError)
deriving DecidableEq

/-- The session after an edit, or as it was if the edit names no stretch of the document. -/
def carryOut (s : Session σ) (edit : CallEdit) : Except Refusal CallEdit × Session σ :=
  match Insert.apply s.buffer edit with
  | .ok b => (.ok edit, { s with buffer := b })
  | .error e => (.error (.range e), s)

/-- The edit that a step makes, and the session after it. A plain exchange is an edit without the
name of a call. -/
def step (registry : Registry) (resolve : Resolver σ) (s : Session σ) :
    Step → Except Refusal CallEdit × Session σ
  | .replace start stop new => s.carryOut { name := [], start, stop, newText := new }
  | .insert request =>
    match (Insert.plan s.buffer request registry resolve).run s.lookups with
    | (.error e, lookups) => (.error (.sizing e), { s with lookups })
    | (.ok edit, lookups) => carryOut { s with lookups } edit

end Session
end PugSize
