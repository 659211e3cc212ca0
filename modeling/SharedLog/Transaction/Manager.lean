import SharedLog.Interval
import SharedLog.Sequencer.Client
import SharedLog.Transaction.Context

/-!
What all transactions of one manager share: the sequencer and the log they run against, how finely conflicts
are told apart, and how long a reader waits for a writer before it fills the writer's address with a hole.
-/

namespace SharedLog

/-- The surroundings of a transaction. -/
structure TransactionManager (m : Type → Type) where
  sequencer : SequencerClient m
  log : LogCalls m
  granularity : Granularity
  /-- How often a reader waits for an entry before it fills the address. -/
  holeFillAttempts : Nat
  /-- Wait once. -/
  wait : m Unit
  /-- Count a finished transaction. -/
  count : Counter → m Unit

end SharedLog
