-- The callables of `cs_internal.h`, as far as connections compare them.

namespace CsSignal

/-- A `Bento<T>`: its kind, the C++ type it was made for, and what it wraps. A
null pointer is `none`; a lambda is known by its closure. -/
inductive Bento
  | lambda (type : Nat) (closure : Nat)
  | function (type : Nat) (ptr : Option Nat)
  | method (type : Nat) (ptr : Option Nat)
  | constMethod (type : Nat) (ptr : Option Nat)
  deriving DecidableEq, Repr

namespace Bento

/-- `operator ==`: the dynamic cast to the own type, then the pointers. Two
lambdas can not be compared. -/
def eq : Bento → Bento → Bool
  | lambda _ _, _ => false
  | function t p, function t' p' => t == t' && p == p'
  | method t p, method t' p' => t == t' && p == p'
  | constMethod t p, constMethod t' p' => t == t' && p == p'
  | _, _ => false

/-- Is the wrapped pointer null? -/
def isNull : Bento → Bool
  | lambda _ _ => false
  | function _ p => p.isNone
  | method _ p => p.isNone
  | constMethod _ p => p.isNone

/-- Does `invoke` look at the receiver? -/
def usesReceiver : Bento → Bool
  | lambda _ _ => false
  | function _ _ => false
  | method _ _ => true
  | constMethod _ _ => true

end Bento

inductive ConnectionKind
  | autoConnection
  | directConnection
  | queuedConnection
  | blockingQueuedConnection
  deriving DecidableEq, Repr

end CsSignal
