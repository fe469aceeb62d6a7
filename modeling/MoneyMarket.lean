import MoneyMarket.Book.Due
import MoneyMarket.Book.Lifecycle
import MoneyMarket.Book.MaturityHeap
import MoneyMarket.Book.Moves
import MoneyMarket.Book.Sync
import MoneyMarket.Book.Worth
import MoneyMarket.Book.Yield
import MoneyMarket.Evm.Checked
import MoneyMarket.Evm.ERC20
import MoneyMarket.Evm.External
import MoneyMarket.Evm.Gift
import MoneyMarket.Evm.Loop
import MoneyMarket.Evm.Reverts
import MoneyMarket.Evm.Rows
import MoneyMarket.Keeper.AutoClaim
import MoneyMarket.Keeper.Claims
import MoneyMarket.Keeper.Positions
import MoneyMarket.Lib.Fund
import MoneyMarket.Lib.Greedy
import MoneyMarket.Lib.Heap
import MoneyMarket.Lib.OrderedMap
import MoneyMarket.Lib.Ratio
import MoneyMarket.Lib.Relational
import MoneyMarket.Lib.Rounds
import MoneyMarket.Lib.Sums
import MoneyMarket.Lib.Transition
import MoneyMarket.Oracle.Band
import MoneyMarket.Oracle.Checked
import MoneyMarket.Oracle.Composed
import MoneyMarket.Oracle.Discounted
import MoneyMarket.Oracle.Feed
import MoneyMarket.Oracle.Gate
import MoneyMarket.Oracle.Preview
import MoneyMarket.Pool.Agreement
import MoneyMarket.Pool.Answers
import MoneyMarket.Pool.Decentral
import MoneyMarket.Pool.World
import MoneyMarket.Queue.Batch
import MoneyMarket.Queue.Claims
import MoneyMarket.Queue.Fifo
import MoneyMarket.Queue.Idle
import MoneyMarket.Queue.Index
import MoneyMarket.Queue.Ledger
import MoneyMarket.Queue.Locks
import MoneyMarket.Queue.Moves
import MoneyMarket.Queue.Order
import MoneyMarket.Queue.Reads
import MoneyMarket.Vault.Accounting
import MoneyMarket.Vault.Accrual
import MoneyMarket.Vault.Authority
import MoneyMarket.Vault.Balance
import MoneyMarket.Vault.Beside
import MoneyMarket.Vault.Breaker
import MoneyMarket.Vault.Bystander
import MoneyMarket.Vault.Calls
import MoneyMarket.Vault.ClaimOrder
import MoneyMarket.Vault.Claiming
import MoneyMarket.Vault.Configure
import MoneyMarket.Vault.Conservation
import MoneyMarket.Vault.Course
import MoneyMarket.Vault.Dilution
import MoneyMarket.Vault.Donation
import MoneyMarket.Vault.Fund
import MoneyMarket.Vault.Indexed
import MoneyMarket.Vault.Invariant
import MoneyMarket.Vault.Limits
import MoneyMarket.Vault.Machine
import MoneyMarket.Vault.Maturity
import MoneyMarket.Vault.Moves
import MoneyMarket.Vault.Neutral
import MoneyMarket.Vault.Outlay
import MoneyMarket.Vault.Paused
import MoneyMarket.Vault.Positions
import MoneyMarket.Vault.PriceFeed
import MoneyMarket.Vault.Progress
import MoneyMarket.Vault.QueueLib
import MoneyMarket.Vault.Quotes
import MoneyMarket.Vault.RateFloor
import MoneyMarket.Vault.Refusal
import MoneyMarket.Vault.Registry
import MoneyMarket.Vault.Reinvest
import MoneyMarket.Vault.Replay
import MoneyMarket.Vault.Schedule
import MoneyMarket.Vault.Settlement
import MoneyMarket.Vault.Solvency
import MoneyMarket.Vault.State
import MoneyMarket.Vault.Terms
import MoneyMarket.Vault.Unblocked
import MoneyMarket.Vault.Value
import MoneyMarket.Vault.Views
import MoneyMarket.Vault.WaitTime
import MoneyMarket.Vault.Zap
import MoneyMarket.Watchdog.Alerts
import MoneyMarket.Watchdog.Positions
import MoneyMarket.Watchdog.Scan
