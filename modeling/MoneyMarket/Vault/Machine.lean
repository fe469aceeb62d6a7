/-
The vault as a transition system. A run starts from the initializer and takes any calls of any
accounts, any moves of the HOLLAR ledger outside the vault, and any advance of the block time;
a call that reverts is not a step. Each call carries what the pools and the feeds answer to it.
-/
import MoneyMarket.Lib.Transition
import MoneyMarket.Vault.Calls

namespace MoneyMarket

open Evm

/-! ## The first state -/

/-- Storage before the initializer. -/
def State.blank (token : ERC20) (now : Nat) : State where
  hollar := 0
  activeDepositPool := 0
  pools := []
  isPoolRegistered _ := false
  isRegisteredPoolToken _ := false
  tvlCap := 0
  depositsPaused := false
  minReinvestAmount := 0
  minRedeemAmount := 0
  oracle := 0
  principalMismatchBpsThreshold := 0
  paused := false
  hasRole _ _ := false
  isOperator _ _ := false
  autoClaimEnabled _ := false
  positions := []
  positionPool _ := 0
  positionHead := 0
  maturityHeap := []
  totalInvestedPrincipal := 0
  yieldRateSum := 0
  yieldOffsetSum := 0
  totalPendingYield := 0
  redemptionQueue _ := Request.empty
  settledByController _ := []
  queueHead := 0
  queueTail := 0
  totalQueuedBil := 0
  totalReservedHollar := 0
  totalSettledBil := 0
  idleHollar := 0
  bil := ⟨fun _ => 0, fun _ _ => 0, 0⟩
  token := token
  now := now

/-- The arguments of the initializer. -/
structure Setup where
  decentralPool : Address
  poolToken : Address
  hollar : Address
  tvlCap : Nat
  admin : Address

/-- `initialize`. -/
def initializeVault (env : Replies) (p : Setup) (token : ERC20) (now : Nat) : Tx State := do
  require (p.decentralPool ≠ 0) (.custom .zeroAddress)
  require (p.poolToken ≠ 0) (.custom .zeroAddress)
  require (p.hollar ≠ 0) (.custom .zeroAddress)
  require (p.admin ≠ 0) (.custom .zeroAddress)
  let s := { State.blank token now with hollar := p.hollar }
  let registry ← registerPool (env.pool p.decentralPool) s.toRegistry p.decentralPool p.hollar p.poolToken
  let s := { s with
    toRegistry := { registry with activeDepositPool := p.decentralPool }
    tvlCap := p.tvlCap
    minReinvestAmount := 10 * wad
    minRedeemAmount := wad
    principalMismatchBpsThreshold := 100 }
  return setRole (setRole (setRole s .defaultAdmin p.admin true) .admin p.admin true) .upgrader p.admin true

/-! ## Steps -/

/-- The external functions, those of the share token included. -/
inductive Call where
  | deposit (assets : Nat) (receiver : Address)
  | mint (shares : Nat) (receiver : Address)
  | requestRedeem (shares : Nat) (controller owner : Address)
  | cancelRedeem (requestId : Nat)
  | redeem (shares : Nat) (receiver controller : Address)
  | withdraw (assets : Nat) (receiver controller : Address)
  | pokeDecentral (positionIndex : Nat)
  | pokeQueue
  | syncMaturities (maxPositions : Nat)
  | setOperator (operator : Address) (approved : Bool)
  | setAutoClaim (enabled : Bool)
  | pauseDeposits
  | unpauseDeposits
  | pause
  | unpause
  | setTvlCap (newCap : Nat)
  | setMinReinvestAmount (amount : Nat)
  | setMinRedeemAmount (amount : Nat)
  | setOracle (oracle : Address)
  | setPrincipalMismatchBpsThreshold (bps : Nat)
  | registerPool (newPool : Address)
  | setActiveDepositPool (pool : Address)
  | retirePool (pool : Address)
  | grantRole (role : Role) (account : Address)
  | revokeRole (role : Role) (account : Address)
  | renounceRole (role : Role) (account : Address)
  | share (c : ERC20.Call)
  deriving Repr, DecidableEq

inductive Action where
  /-- A new block. -/
  | tick (now : Nat)
  /-- A transaction of `sender`, and what the code outside the vault answers to it. -/
  | call (sender : Address) (env : Replies) (c : Call)
  /-- A HOLLAR transaction of another account. -/
  | hollar (sender : Address) (c : ERC20.Call)
  | hollarMint (account : Address) (amount : Nat)
  | hollarBurn (account : Address) (amount : Nat)

/-- Run one external function; a call that pays nothing out reports no payouts. -/
def Call.run (d : Deployment) (env : Replies) (s : State) (sender : Address) : Call → Tx (State × List Payout)
  | .deposit assets receiver => do
    let (s, _) ← MoneyMarket.deposit d env s sender assets receiver
    return (s, [])
  | .mint shares receiver => do
    let (s, _) ← MoneyMarket.mint d env s sender shares receiver
    return (s, [])
  | .requestRedeem shares controller owner => do
    let (s, _) ← MoneyMarket.requestRedeem d s sender shares controller owner
    return (s, [])
  | .cancelRedeem requestId => do return (← MoneyMarket.cancelRedeem d s sender requestId, [])
  | .redeem shares receiver controller => do
    let (s, _) ← MoneyMarket.redeem d s sender shares receiver controller
    return (s, [])
  | .withdraw assets receiver controller => do
    let (s, _) ← MoneyMarket.withdraw d s sender assets receiver controller
    return (s, [])
  | .pokeDecentral positionIndex => MoneyMarket.pokeDecentral d env s positionIndex
  | .pokeQueue => do return (← MoneyMarket.pokeQueue d env s, [])
  | .syncMaturities maxPositions => do
    let (s, _) ← MoneyMarket.syncMaturities s maxPositions
    return (s, [])
  | .setOperator operator approved => do return (← MoneyMarket.setOperator s sender operator approved, [])
  | .setAutoClaim enabled => .ok (MoneyMarket.setAutoClaim s sender enabled, [])
  | .pauseDeposits => do return (← MoneyMarket.pauseDeposits s sender, [])
  | .unpauseDeposits => do return (← MoneyMarket.unpauseDeposits s sender, [])
  | .pause => do return (← MoneyMarket.pause s sender, [])
  | .unpause => do return (← MoneyMarket.unpause s sender, [])
  | .setTvlCap newCap => do return (← MoneyMarket.setTvlCap s sender newCap, [])
  | .setMinReinvestAmount amount => do return (← MoneyMarket.setMinReinvestAmount s sender amount, [])
  | .setMinRedeemAmount amount => do return (← MoneyMarket.setMinRedeemAmount s sender amount, [])
  | .setOracle oracle => do return (← MoneyMarket.setOracle env s sender oracle, [])
  | .setPrincipalMismatchBpsThreshold bps => do
    return (← MoneyMarket.setPrincipalMismatchBpsThreshold s sender bps, [])
  | .registerPool newPool => do return (← registerPoolCall env s sender newPool, [])
  | .setActiveDepositPool pool => do return (← MoneyMarket.setActiveDepositPool s sender pool, [])
  | .retirePool pool => do return (← MoneyMarket.retirePool env s sender pool, [])
  | .grantRole role account => do return (← MoneyMarket.grantRole s sender role account, [])
  | .revokeRole role account => do return (← MoneyMarket.revokeRole s sender role account, [])
  | .renounceRole role account => do return (← MoneyMarket.renounceRole s sender role account, [])
  | .share c => do return ({ s with bil := ← s.bil.call sender c }, [])

/-- The state an action leaves and the payouts it credited, or its revert. -/
def step (d : Deployment) (s : State) : Action → Tx (State × List Payout)
  | .tick now => .ok ({ s with now }, [])
  | .call sender env c => c.run d env s sender
  | .hollar sender c => do return ({ s with token := ← s.token.call sender c }, [])
  | .hollarMint account amount => do return ({ s with token := ← s.token.mint account amount }, [])
  | .hollarBurn account amount => do return ({ s with token := ← s.token.burn account amount }, [])

/-- The vault's allowance is drawn by a pool in its own deposit only. -/
def drawsOn (account : Address) : ERC20.Call → Prop
  | .transferFrom src _ _ => src = account
  | _ => False

/-- Which actions happen at all: time does not go back, and the vault sends only what its own
functions send. -/
def Legal (d : Deployment) (s : State) : Action → Prop
  | .tick now => s.now ≤ now
  | .call sender _ _ => sender ≠ d.self
  | .hollar sender c => sender ≠ d.self ∧ ¬ drawsOn d.self c
  | .hollarMint _ _ => True
  | .hollarBurn account _ => account ≠ d.self

/-- A plain token: its balances add up to a 256-bit supply. -/
structure PlainLedger (token : ERC20) : Prop where
  conserved : token.Conserved
  supply : token.totalSupply < uintSize

/-- The runs of the vault. -/
def vault (d : Deployment) : Transition.System State Action where
  init s := ∃ env p token now, PlainLedger token ∧ initializeVault env p token now = .ok s
  next s a t := Legal d s a ∧ ∃ payouts, step d s a = .ok (t, payouts)

abbrev Reachable (d : Deployment) (s : State) : Prop := (vault d).Reach s

/-- Who calls the vault; the zero address where nobody does. -/
def Action.sender : Action → Address
  | .call sender _ _ => sender
  | _ => 0

/-- Nobody holds the key of the dead address. -/
def DeadSilent (_ : State) (a : Action) : Prop := a.sender ≠ deadAddress

end MoneyMarket
