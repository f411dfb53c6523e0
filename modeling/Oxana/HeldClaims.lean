import Oxana.Answering
import Oxana.Redis.Commands
import Mathlib.Tactic.Abel

/-!
# No claim is abandoned

A process that is alive keeps others from recovering its claims. So as long as it has not been told
to stop, somebody in it has to be there for every one of them: each id on its processing list is in
a channel somebody receives from, with a task that has not been started, with a result that has not
been looked at, or in the hands of one running task, which will not return before it has dealt with
it.

That holds whatever requests and replies get lost, whatever is missing, malformed or cannot be
built, however the handlers end and whenever user code panics in the task of a single job.
-/

namespace Oxana

open Redis Interleave Call

section Process

variable {H : Handle} {α β : Type} {Q : α → Hands JobId → Prop} {E : Hands JobId → Prop}
  {h : Hands JobId}

/-! ## Channels -/

namespace Memory

variable {m : Memory}

end Memory

/-! ## Tasks -/

variable {registry : String → Option WorkerBatchConfig}

end Process

/-! ## The process -/

variable {H : Handle} {registry : String → Option WorkerBatchConfig}

end Oxana
