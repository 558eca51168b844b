import Mathlib.Analysis.Real.Pi.Bounds
import Mathlib.Analysis.SpecialFunctions.Log.Basic
import Mathlib.Data.List.FinRange
import Mathlib.Tactic

set_option autoImplicit false

/-!
# The variational loop that refines the initial clustering

Exact real arithmetic. The guard added to logarithms and divisors is the
argument `eps`. The loop records the values it calls ELBO and how it ended.
-/
namespace PyannoteCpp.VariationalLoop
open Real
noncomputable section

structure Problem (N D : ℕ) where
  Fa : ℝ
  Fb : ℝ
  pldaPsi : Fin D → ℝ
  embeddings : Fin N → Fin D → ℝ

structure VbState (N K : ℕ) where
  gamma : Fin N → Fin K → ℝ
  pi : Fin K → ℝ

variable {N D K : ℕ} (P : Problem N D)

namespace Problem

def G (i : Fin N) : ℝ :=
  -0.5 * (∑ d, P.embeddings i d * P.embeddings i d + D * log (2.0 * Real.pi))

def V (d : Fin D) : ℝ := √(P.pldaPsi d)

def rho (i : Fin N) (d : Fin D) : ℝ := P.embeddings i d * P.V d

variable (gamma : Fin N → Fin K → ℝ)

def gammaSum (gamma : Fin N → Fin K → ℝ) (k : Fin K) : ℝ := ∑ i, gamma i k

def invL (k : Fin K) (d : Fin D) : ℝ := 1 / (1 + P.Fa / P.Fb * gammaSum gamma k * P.pldaPsi d)

def alpha (k : Fin K) (d : Fin D) : ℝ :=
  P.Fa / P.Fb * P.invL gamma k d * ∑ i, gamma i k * P.rho i d

/-- `log_p` as a function of the two tables the source fills before it. -/
def score (invL alpha : Fin K → Fin D → ℝ) (i : Fin N) (k : Fin K) : ℝ :=
  let term2 := 0.5 * ∑ d, (invL k d + alpha k d * alpha k d) * P.pldaPsi d
  let term1 := ∑ d, P.rho i d * alpha k d
  P.Fa * (term1 - term2 + P.G i)

def logP (i : Fin N) (k : Fin K) : ℝ := P.score (P.invL gamma) (P.alpha gamma) i k

variable (eps : ℝ) (s : VbState N K)

def logProbs (i : Fin N) (k : Fin K) : ℝ := P.logP s.gamma i k + log (s.pi k + eps)

def maxLp (i : Fin N) : ℝ :=
  (List.finRange K).foldl (fun m k => if P.logProbs eps s i k > m then P.logProbs eps s i k else m) (-1e20)

def weight (i : Fin N) (k : Fin K) : ℝ := exp (P.logProbs eps s i k - P.maxLp eps s i)

def sumProb (i : Fin N) : ℝ := ∑ k, P.weight eps s i k

def nextGamma (i : Fin N) (k : Fin K) : ℝ := P.weight eps s i k / (P.sumProb eps s i + eps)

def logPX : ℝ := ∑ i, (P.maxLp eps s i + log (P.sumProb eps s i + eps))

def nextPi (k : Fin K) : ℝ :=
  (∑ i, P.nextGamma eps s i k) / (∑ k, ∑ i, P.nextGamma eps s i k + eps)

def elboReg (eps : ℝ) (invL alpha : Fin K → Fin D → ℝ) : ℝ :=
  ∑ k, ∑ d, (log (invL k d + eps) - invL k d - alpha k d * alpha k d + 1)

def elbo : ℝ :=
  P.logPX eps s + P.Fb * 0.5 * elboReg eps (P.invL s.gamma) (P.alpha s.gamma)

def next : VbState N K := ⟨P.nextGamma eps s, P.nextPi eps s⟩

end Problem

/-- The two messages under which the loop is left early. -/
inductive EarlyStop where
  | decreased
  | converged
  deriving DecidableEq

structure Outcome (N K : ℕ) where
  elbos : List ℝ
  stop : Option EarlyStop
  final : VbState N K

/-- The loop from iteration `iter` on, with the number of iterations left. -/
def vbLoop (eps : ℝ) : ℕ → ℕ → VbState N K → ℝ → Outcome N K
  | 0, _, s, _ => ⟨[], none, s⟩
  | left + 1, iter, s, prevElbo =>
    let elbo := P.elbo eps s
    if iter > 0 ∧ elbo - prevElbo < 1e-4 then
      ⟨[elbo], some (if elbo - prevElbo < 0 then .decreased else .converged), P.next eps s⟩
    else
      let rest := vbLoop eps left (iter + 1) (P.next eps s) elbo
      ⟨elbo :: rest.elbos, rest.stop, rest.final⟩

/-- The loop of `cluster_vbx` on given responsibilities, with a uniform prior. -/
def clusterVbxLoop (eps : ℝ) (maxIters : ℕ) (gamma : Fin N → Fin K → ℝ) : Outcome N K :=
  vbLoop P eps maxIters 0 ⟨gamma, fun _ => 1 / K⟩ (-1e20)

end
end PyannoteCpp.VariationalLoop
