import AudioProcess.Lib.Run
import AudioProcess.Lib.Cyclic
import AudioProcess.RingBuf.Model
import AudioProcess.RingBuf.Fifo
import AudioProcess.FramesQueue.Model
import AudioProcess.FramesQueue.Fifo
import AudioProcess.FramesQueue.Borrow
import AudioProcess.Lib.CFloat
import AudioProcess.Lib.Loop
import AudioProcess.Lib.OverlapAdd
import AudioProcess.Denoise.Handle
import AudioProcess.Denoise.Threshold
import AudioProcess.Denoise.CoreSpec
import AudioProcess.Denoise.Api
import AudioProcess.Denoise.Windows
import AudioProcess.Denoise.Stream
import AudioProcess.Denoise.Reset
import AudioProcess.Denoise.Silence
import AudioProcess.Denoise.Reconstruction
import AudioProcess.Denoise.Flush
import AudioProcess.Lib.Bytes
import AudioProcess.Wav.Model
import AudioProcess.Wav.Scan
import AudioProcess.Wav.Riff
import AudioProcess.Apm.AudioBuffer
import AudioProcess.Apm.Model
import AudioProcess.Apm.Compose
import AudioProcess.FramesQueue.Occupancy
import AudioProcess.RingBuf.Accept
import AudioProcess.FramesQueue.AllocFail
import AudioProcess.Lib.FirstMin
import AudioProcess.Denoise.Reference
import AudioProcess.Wav.RoundTrip
import AudioProcess.Wav.Copy
import AudioProcess.Denoise.Main
import AudioProcess.Denoise.Conserve
import AudioProcess.Apm.Ns
import AudioProcess.Lib.Defined
import AudioProcess.Apm.Bounds
import AudioProcess.Lib.Halves
import AudioProcess.Lib.Related
import AudioProcess.Apm.Rows
import AudioProcess.Apm.NoAgc
import AudioProcess.Apm.Reinit
import AudioProcess.Apm.Flags
import AudioProcess.Apm.Strip
import AudioProcess.Apm.Channels
import AudioProcess.Wav.Accept
import AudioProcess.Denoise.Accesses
import AudioProcess.Denoise.Coverage
import AudioProcess.Highpass.Convolution
import AudioProcess.Highpass.Init
import AudioProcess.Denoise.Geometry
import AudioProcess.Denoise.LowBand
import AudioProcess.Lib.Proc
import AudioProcess.Lib.Words
import AudioProcess.Denoise.Alloc
import AudioProcess.Denoise.AllocSteps
import AudioProcess.Denoise.Cleanup
import AudioProcess.Denoise.Int16
import AudioProcess.Apm.Leftover
import AudioProcess.RingBuf.Ranges
import AudioProcess.RingBuf.Threads
import AudioProcess.Apm.Owners
import AudioProcess.Lib.Ledger
import AudioProcess.Apm.Releases
import AudioProcess.Fft.Model
import AudioProcess.Lib.Dft
import AudioProcess.Fft.Factor
import AudioProcess.Fft.Butterfly
import AudioProcess.Fft.Transform
import AudioProcess.Fft.Real
import AudioProcess.Denoise.Energy
import AudioProcess.Lib.Mutex
import AudioProcess.FramesQueue.Locked
import AudioProcess.FramesQueue.Destroy
import AudioProcess.RingBuf.Locked
import AudioProcess.Apm.Qmf
import AudioProcess.Apm.QmfStream
import AudioProcess.Apm.Reconstruct
import AudioProcess.Apm.SplittingFilter
import AudioProcess.Apm.TwoBands
