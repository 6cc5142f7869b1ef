/-! The complementary error function and its inverse.

Each is given by quotients of polynomials, one for each piece of its range. Near zero a quotient
gives the error function itself; from one half on, it gives what remains of the complement after
division by `exp (-(x * x)) / x`. The inverse has a middle piece too, for complements from one
quarter to one half, and pieces in the root of the negative logarithm of the complement beyond.
Arguments below zero are reflected, so the complement is exact near two.
-/

set_option autoImplicit false

namespace Horizon.ErrorFunction

def sqrtTwo : Float := 1.4142135623730950488

def polynomial (x : Float) (coefficients : List Float) : Float :=
  coefficients.foldr (fun c sum => c + x * sum) 0.0

/-- A piece of a function: below the limit, a constant and a quotient of polynomials in the
distance from the centre. -/
structure Piece where
  limit : Float
  centre : Float
  base : Float
  numerator : List Float
  denominator : List Float

def Piece.quotient (p : Piece) (x : Float) : Float :=
  polynomial (x - p.centre) p.numerator / polynomial (x - p.centre) p.denominator

def Piece.scale (p : Piece) (factor x : Float) : Float :=
  factor * p.base + factor * p.quotient x

def pieceAt (pieces : List Piece) (x : Float) : Option Piece :=
  pieces.find? fun p => x < p.limit

/-- The error function over its argument, near zero. -/
def erfCentre : Piece :=
  ⟨0.5, 0.0, 1.125,
    [0.00337916709551257388990745, -0.00073695653048167948530905, -0.374732337392919607868241,
     0.0817442448733587196071743, -0.0421089319936548595203468, 0.0070165709512095756344528,
     -0.00495091255982435110337458, 0.000871646599037922480317225],
    [1.0, -0.218088218087924645390535, 0.412542972725442099083918, -0.0841891147873106755410271,
     0.0655338856400241519690695, -0.0120019604454941768171266, 0.00408165558926174048329689,
     -0.000615900721557769691924509]⟩

/-- The complementary error function over `exp (-(x * x)) / x`, from one half on. -/
def erfcPieces : List Piece :=
  [⟨0.75, 0.5, 0.3440242112,
      [-0.0361790390718262471360258, 0.292251883444882683221149, 0.281447041797604512774415,
       0.125610208862766947294894, 0.0274135028268930549240776, 0.00250839672168065762786937],
      [1.0, 1.8545005897903486499845, 1.43575803037831418074962, 0.582827658753036572454135,
       0.124810476932949746447682, 0.0113724176546353285778481]⟩,
   ⟨1.25, 0.75, 0.419990927,
      [-0.0397876892611136856954425, 0.153165212467878293257683, 0.191260295600936245503129,
       0.10276327061989304213645, 0.029637090615738836726027, 0.0046093486780275489468812,
       0.000307607820348680180548455],
      [1.0, 1.95520072987627704987886, 1.64762317199384860109595, 0.768238607022126250082483,
       0.209793185936509782784315, 0.0319569316899913392596356, 0.00213363160895785378615014]⟩,
   ⟨2.25, 1.25, 0.4898625016,
      [-0.0300838560557949717328341, 0.0538578829844454508530552, 0.0726211541651914182692959,
       0.0367628469888049348429018, 0.00964629015572527529605267, 0.00133453480075291076745275,
       0.778087599782504251917881e-4],
      [1.0, 1.75967098147167528287343, 1.32883571437961120556307, 0.552528596508757581287907,
       0.133793056941332861912279, 0.0179509645176280768640766, 0.00104712440019937356634038,
       -0.106640381820357337177643e-7]⟩,
   ⟨3.5, 2.25, 0.5317370892,
      [-0.0117907570137227847827732, 0.014262132090538809896674, 0.0202234435902960820020765,
       0.00930668299990432009042239, 0.00213357802422065994322516, 0.00025022987386460102395382,
       0.120534912219588189822126e-4],
      [1.0, 1.50376225203620482047419, 0.965397786204462896346934, 0.339265230476796681555511,
       0.0689740649541569716897427, 0.00771060262491768307365526, 0.000371421101531069302990367]⟩,
   ⟨5.25, 3.5, 0.5489973426,
      [-0.00546954795538729307482955, 0.00404190278731707110245394, 0.0054963369553161170521356,
       0.00212616472603945399437862, 0.000394984014495083900689956,
       0.365565477064442377259271e-4, 0.135485897109932323253786e-5],
      [1.0, 1.21019697773630784832251, 0.620914668221143886601045, 0.173038430661142762569515,
       0.0276550813773432047594539, 0.00240625974424309709745382, 0.891811817251336577241006e-4,
       -0.465528836283382684461025e-11]⟩,
   ⟨8.0, 5.25, 0.5571740866,
      [-0.00270722535905778347999196, 0.0013187563425029400461378, 0.00119925933261002333923989,
       0.00027849619811344664248235, 0.267822988218331849989363e-4, 0.923043672315028197865066e-6],
      [1.0, 0.814632808543141591118279, 0.268901665856299542168425, 0.0449877216103041118694989,
       0.00381759663320248459168994, 0.000131571897888596914350697,
       0.404815359675764138445257e-11]⟩,
   ⟨11.5, 8.0, 0.5609807968,
      [-0.00109946720691742196814323, 0.000406425442750422675169153,
       0.000274499489416900707787024, 0.465293770646659383436343e-4,
       0.320955425395767463401993e-5, 0.778286018145020892261936e-7],
      [1.0, 0.588173710611846046373373, 0.139363331289409746077541, 0.0166329340417083678763028,
       0.00100023921310234908642639, 0.24254837521587225125068e-4]⟩,
   ⟨17.0, 11.5, 0.5626493692,
      [-0.00056907993601094962855594, 0.000169498540373762264416984,
       0.518472354581100890120501e-4, 0.382819312231928859704678e-5,
       0.824989931281894431781794e-7],
      [1.0, 0.339637250051139347430323, 0.043472647870310663055044, 0.00248549335224637114641629,
       0.535633305337152900549536e-4, -0.117490944405459578783846e-12]⟩,
   ⟨24.0, 17.0, 0.5634598136,
      [-0.000241313599483991337479091, 0.574224975202501512365975e-4,
       0.115998962927383778460557e-4, 0.581762134402593739370875e-6,
       0.853971555085673614607418e-8],
      [1.0, 0.233044138299687841018015, 0.0204186940546440312625597,
       0.000797185647564398289151125, 0.117019281670172327758019e-4]⟩,
   ⟨38.0, 24.0, 0.5638477802,
      [-0.000146674699277760365803642, 0.162666552112280519955647e-4,
       0.269116248509165239294897e-5, 0.979584479468091935086972e-7,
       0.101994647625723465722285e-8],
      [1.0, 0.165907812944847226546036, 0.0103361716191505884359634,
       0.000286593026373868366935721, 0.298401570840900340874568e-5]⟩]

def erfSmall (x : Float) : Float :=
  if x < 1e-10 then x * erfCentre.base + x * 0.003379167095512573896158903121545171688
  else
    x * erfCentre.base
      + x * polynomial x erfCentre.numerator / polynomial x erfCentre.denominator

def erfcLarge (x : Float) : Float :=
  match pieceAt erfcPieces x with
  | some p => p.scale (Float.exp (-(x * x)) / x) x
  | none => 0.0

def erfPositive (x : Float) : Float :=
  if x < 0.5 then erfSmall x else 1.0 - erfcLarge x

def erfcPositive (x : Float) : Float :=
  if x < 0.5 then 1.0 - erfSmall x else erfcLarge x

def erfc (x : Float) : Float :=
  if x.isNaN then x
  else if x < -0.5 then 2.0 - erfcPositive (-x)
  else if x < 0.0 then 1.0 + erfPositive (-x)
  else erfcPositive x

/-- The inverse error function of `y` over `y * (y + 10)`, for `y` up to one half. -/
def inverseCentre : Piece :=
  ⟨0.5, 0.0, 0.0891314744949340820313,
    [-0.000508781949658280665617, -0.00836874819741736770379, 0.0334806625409744615033,
     -0.0126926147662974029034, -0.0365637971411762664006, 0.0219878681111168899165,
     0.00822687874676915743155, -0.00538772965071242932965],
    [1.0, -0.970005043303290640362, -1.56574558234175846809, 1.56221558398423026363,
     0.662328840472002992063, -0.71228902341542847553, -0.0527396382340099713954,
     0.0795283687341571680018, -0.00233393759374190016776, 0.000886216390456424707504]⟩

/-- The root of minus twice the logarithm of the complement, over the inverse. -/
def inverseMiddle : Piece :=
  ⟨0.5, 0.25, 2.249481201171875,
    [-0.202433508355938759655, 0.105264680699391713268, 8.37050328343119927838,
     17.6447298408374015486, -18.8510648058714251895, -44.6382324441786960818,
     17.445385985570866523, 21.1294655448340526258, -3.67192254707729348546],
    [1.0, 6.24264124854247537712, 3.9713437953343869095, -28.6608180499800029974,
     -20.1432634680485188801, 48.5609213108739935468, 10.8268667355460159008,
     -22.6436933413139721736, 1.72114765761200282724]⟩

/-- The inverse over `x`, the root of the negative logarithm of the complement. -/
def inversePieces : List Piece :=
  [⟨3.0, 1.125, 0.807220458984375,
      [-0.131102781679951906451, -0.163794047193317060787, 0.117030156341995252019,
       0.387079738972604337464, 0.337785538912035898924, 0.142869534408157156766,
       0.0290157910005329060432, 0.00214558995388805277169, -0.679465575181126350155e-6,
       0.285225331782217055858e-7, -0.681149956853776992068e-9],
      [1.0, 3.46625407242567245975, 5.38168345707006855425, 4.77846592945843778382,
       2.59301921623620271374, 0.848854343457902036425, 0.152264338295331783612,
       0.01105924229346489121]⟩,
   ⟨6.0, 3.0, 0.93995571136474609375,
      [-0.0350353787183177984712, -0.00222426529213447927281, 0.0185573306514231072324,
       0.00950804701325919603619, 0.00187123492819559223345, 0.000157544617424960554631,
       0.460469890584317994083e-5, -0.230404776911882601748e-9, 0.266339227425782031962e-11],
      [1.0, 1.3653349817554063097, 0.762059164553623404043, 0.220091105764131249824,
       0.0341589143670947727934, 0.00263861676657015992959, 0.764675292302794483503e-4]⟩,
   ⟨18.0, 6.0, 0.98362827301025390625,
      [-0.0167431005076633737133, -0.00112951438745580278863, 0.00105628862152492910091,
       0.000209386317487588078668, 0.149624783758342370182e-4, 0.449696789927706453732e-6,
       0.462596163522878599135e-8, -0.281128735628831791805e-13, 0.99055709973310326855e-16],
      [1.0, 0.591429344886417493481, 0.138151865749083321638, 0.0160746087093676504695,
       0.000964011807005165528527, 0.275335474764726041141e-4, 0.282243172016108031869e-6]⟩,
   ⟨44.0, 18.0, 0.99714565277099609375,
      [-0.0024978212791898131227, -0.779190719229053954292e-5, 0.254723037413027451751e-4,
       0.162397777342510920873e-5, 0.396341011304801168516e-7, 0.411632831190944208473e-9,
       0.145596286718675035587e-11, -0.116765012397184275695e-17],
      [1.0, 0.207123112214422517181, 0.0169410838120975906478, 0.000690538265622684595676,
       0.145007359818232637924e-4, 0.144437756628144157666e-6, 0.509761276599778486139e-9]⟩]

/-- The inverse of the error function at `y` from zero on, where `z` is its complement `1 - y`. -/
def inversePositive (y z : Float) : Float :=
  if y ≤ 0.5 then inverseCentre.scale (y * (y + 10.0)) y
  else if 0.25 ≤ z then
    Float.sqrt (-2.0 * Float.log z) / (inverseMiddle.base + inverseMiddle.quotient z)
  else
    let x := Float.sqrt (-(Float.log z))
    match pieceAt inversePieces x with
    | some p => p.scale x x
    | none => x

def inverseErfc (z : Float) : Float :=
  if z ≤ 0.0 then 1.0 / 0.0
  else if 2.0 ≤ z then -1.0 / 0.0
  else if 1.0 < z then -(inversePositive (-1.0 + z) (2.0 - z))
  else inversePositive (1.0 - z) z

end Horizon.ErrorFunction
