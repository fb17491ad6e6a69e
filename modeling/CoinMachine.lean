import CoinMachine.Lib.BitField
import CoinMachine.Lib.BlockCode
import CoinMachine.Lib.CString
import CoinMachine.Lib.EventLog
import CoinMachine.Lib.Inevitable
import CoinMachine.Lib.IntScan
import CoinMachine.Lib.Lines
import CoinMachine.Lib.Numeral
import CoinMachine.Lib.Rmw
import CoinMachine.Lib.Separated
import CoinMachine.Lib.Stutter
import CoinMachine.Lib.Transition
import CoinMachine.Lib.Yields
import CoinMachine.CMem
import CoinMachine.Gpio
import CoinMachine.Glyph
import CoinMachine.DotDriver
import CoinMachine.Drivers
import CoinMachine.OpensRace
import CoinMachine.EdgeDetect
import CoinMachine.LedDriver
import CoinMachine.WriteHandlers
import CoinMachine.SinglePin
import CoinMachine.Accesses
import CoinMachine.KeyDriver
import CoinMachine.KeyOpen
import CoinMachine.Files
import CoinMachine.Sessions
import CoinMachine.Report
import CoinMachine.ReportSpec
import CoinMachine.ReportText
import CoinMachine.Display
import CoinMachine.Process
import CoinMachine.ReportLoop
import CoinMachine.Sensor
import CoinMachine.Sampling
import CoinMachine.Machine
import CoinMachine.Phases
import CoinMachine.PollSet
import CoinMachine.Counting
import CoinMachine.Shown
import CoinMachine.KeyPress
import CoinMachine.Echo
import CoinMachine.EchoInput
import CoinMachine.EchoWaits
import CoinMachine.EchoServer
import CoinMachine.FndConsole
import CoinMachine.KeyLamp
import CoinMachine.ServoConsole
import CoinMachine.Progress
import CoinMachine.Response
import CoinMachine.Served
import CoinMachine.Console
import CoinMachine.EchoEnds
import CoinMachine.Board
import CoinMachine.Restart
import CoinMachine.Presses
import CoinMachine.BoardLines
import CoinMachine.MotorLine
import CoinMachine.MatrixLines
