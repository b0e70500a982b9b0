/-!
A state together with the record of what was reported while it came about.
-/

namespace AccessTree

structure Logged (σ ε : Type) where
  state : σ
  log : Array ε := #[]

namespace Logged

variable {σ ε : Type}

def report (s : Logged σ ε) (e : ε) : Logged σ ε := { s with log := s.log.push e }

end Logged

end AccessTree
