import AccessTree.LiveTree

/-!
Searches: inquiries that are allowed so many steps, and give no answer where those are not enough.
What was asked and reported until then is kept.
-/

namespace AccessTree

abbrev Search (σ ν : Type) := OptionT (Inquiry σ ν)

namespace Search

variable {σ ν : Type}

def note (n : Notice ν) : Search σ ν Unit := OptionT.lift (Inquiry.note n)

def ask (t : LiveTree σ ν) (q : Question ν) : Search σ ν q.Answer := OptionT.lift (Inquiry.ask t q)

end Search

end AccessTree
