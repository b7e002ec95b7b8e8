import Symbolic.Evaluate

/-!
Newton's iteration for square roots, written as an expression of the language: starting
from half of `n`, the guess becomes the mean of itself and `n` divided by it, until its
square is close to `n`.
-/
namespace Symbolic.Newton

open Value

def guess : Value := sym "guess"

def tolerance : Value := sym "tol"

def steps : Value := sym "iters"

def closeness : Value := real 1e-10

def notClose (n : Value) : Value :=
  call "Greater" [call "Abs" [call "Subtract" [call "Power" [guess, int 2], n]], tolerance]

def improve (n : Value) : Value :=
  call "CompoundExpression"
    [call "Set" [guess, call "Divide" [call "Plus" [guess, call "Divide" [n, guess]], int 2]],
      call "Set" [steps, call "Plus" [steps, int 1]]]

/-- The expression whose value is the list of the square root and the number of steps. -/
def program (n : Value) : Value :=
  call "Module"
    [ofItems
        [call "Set" [guess, call "Divide" [n, int 2]], call "Set" [tolerance, closeness],
          call "Set" [steps, int 0]],
      call "CompoundExpression" [call "While" [notClose n, improve n], ofItems [guess, steps]]]

def sqrt (fuel : Nat) (n : Value) : Eval Value := evaluate fuel Session.globalId (program n)

end Symbolic.Newton
