import Lutask.Support.LabelledRuns
import Lutask.Support.TokenPlacement
import Lutask.Support.CooperativeScheduling
import Lutask.Machine.SchedulerMutex
import Lutask.Machine.Progress
import Lutask.ConditionVariable.NoLostWakeup
import Lutask.ConditionVariable.InOrder
import Lutask.Join.Rendezvous
import Lutask.Join.Finished
import Lutask.Exit.Lifetime
import Lutask.Exit.Resumption
import Lutask.Exit.Destructor
import Lutask.Dispatcher.Queued
import Lutask.Dispatcher.TimerPass
import Lutask.Dispatcher.SleepQueue
import Lutask.Fiber.Handover
import Lutask.Fiber.Reclaim
import Lutask.Fiber.StackLayout
import Lutask.Future.OneShot
import Lutask.Future.Delivery
import Lutask.Future.Handles
import Lutask.Future.SoleRun
import Lutask.Async.Outcome
import Lutask.Async.Deadlock
import Lutask.RoundRobin.Shutdown
import Lutask.RoundRobin.Sleep
import Lutask.RoundRobin.LostWakeup
import Lutask.RoundRobin.Order
import Lutask.RoundRobin.Deadlock
import Lutask.SharedWork.SinglePlace
import Lutask.SharedWork.Origin
import Lutask.SharedWork.Ownership
import Lutask.SharedWork.Overtaking
import Lutask.SharedWork.Fairness
import Lutask.Fiber.Coroutine
